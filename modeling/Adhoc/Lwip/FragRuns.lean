import Adhoc.Lwip.Frag
import Adhoc.Lwip.ReassRoom

/-!
# A datagram cut and put together

The fragments that `ip_frag` cuts a datagram into are, one after the other, put together
by `ip_reass` to the datagram they came from, as long as there is room for them all
(`frag_reass`).
-/

namespace Adhoc

open EventMachine Pieces

/-- The fragment as it is received, in one pbuf of the pool. -/
def IpFragment.received (f : IpFragment) : IpFragment := { f with clen := 1 }

/-- Each stored fragment is one of those that came. -/
def FromCome (come : List IpFragment) (s : Reass) : Prop :=
  ∀ r ∈ s.reassdatagrams, ∀ q ∈ r.p, q ∈ come.map IpFragment.helper

section Come

variable {come : List IpFragment} {p : IpFragment} {s t : Reass}

theorem FromCome.empty : FromCome [] {} := List.forall_mem_nil _

theorem FromCome.kept {fraghdr : IpHdr} (h : FromCome come s) (hkept : Kept fraghdr s t) :
    FromCome come t :=
  fun r hr => h r (hkept.sublist.subset hr)

theorem FromCome.opened (h : FromCome come s) (hopen : Opened p s t) : FromCome come t := by
  cases hopen with
  | own => exact h
  | new hnone hlt => exact List.forall_mem_cons.mpr ⟨List.forall_mem_nil _, h⟩

theorem FromCome.mono {come' : List IpFragment} (h : FromCome come s) (hsub : come ⊆ come') :
    FromCome come' s :=
  fun r hr q hq => List.map_subset _ hsub (h r hr q hq)

theorem FromCome.ipReass (h : FromCome come s) (hstep : ipReass p s = some t) :
    FromCome (come ++ [p]) t := by
  have hmono := h.mono (List.subset_append_left come [p])
  obtain ⟨u, hkept, ⟨rfl, -⟩ | ⟨w, front, r, back, hopen, hsplit, -, -, rfl, -⟩⟩ :=
    ipReass_cases hstep
  · exact fun r hr => hmono.kept hkept r hr
  · have hw := (hmono.kept hkept).opened hopen
    rw [FromCome, hsplit, List.forall_mem_append, List.forall_mem_cons] at hw
    obtain ⟨hfront, hr, hback⟩ := hw
    obtain ⟨-, heq⟩ | ⟨frags, hsome, heq⟩ | ⟨frags, -, heq⟩ := ipReassTake_cases (p := p) hsplit
    · rw [heq, FromCome, List.forall_mem_append, List.forall_mem_cons, noteHeader_p]
      exact ⟨hfront, hr, hback⟩
    · rw [heq, FromCome, List.forall_mem_append, List.forall_mem_cons]
      refine ⟨hfront, ?_, hback⟩
      obtain ⟨pre, rest, hsplit', rfl, -⟩ := chainFragAndValidate_spec hsome
      rw [noteHeader_p] at hsplit'
      rw [hsplit', List.forall_mem_append] at hr
      refine List.forall_mem_append.mpr ⟨hr.1, List.forall_mem_cons.mpr ⟨?_, hr.2⟩⟩
      exact List.mem_map_of_mem (List.mem_append_right _ (.head _))
    · rw [heq, FromCome, List.forall_mem_append]
      exact ⟨hfront, hback⟩

theorem FromCome.run {l : List IpFragment} (h : FromCome come s)
    (hrun : reassMachine.run s (l.map .fragment) = some t) : FromCome (come ++ l) t := by
  induction l generalizing s come with
  | nil =>
      obtain rfl := Option.some.inj hrun
      rwa [List.append_nil]
  | cons p l ih =>
      obtain ⟨u, hu, hrest⟩ := Machine.run_cons.mp hrun
      rw [List.append_cons]
      exact ih (h.ipReass hu) hrest

end Come

section Cut

variable {iphdr : IpHdr} {mtu : Nat} {octets : List UInt8} {fs : List IpFragment}

theorem flatMap_received (fs : List IpFragment) :
    (fs.map IpFragment.received).flatMap IpFragment.payload = fs.flatMap IpFragment.payload := by
  rw [List.flatMap_map]
  rfl

theorem clen_received : ∀ f ∈ fs.map IpFragment.received, f.clen = 1 := by
  intro f hf
  obtain ⟨g, -, rfl⟩ := List.mem_map.mp hf
  rfl

/-- The fragments are those of the datagram, however they are received. -/
theorem CutFrom.fragmented (h : CutFrom iphdr mtu 0 octets fs) (hhl : iphdr.hl = 5)
    (hlen : octets.length + ipHlen < 0x10000) :
    Fragmented iphdr.key (fs.map IpFragment.received) := by
  have hle {f : IpFragment} (hf : f ∈ fs) : f.payload.length ≤ octets.length := by
    rw [← h.flat, List.length_flatMap]
    exact List.single_le_sum (by simp) _ (List.mem_map_of_mem hf)
  refine ⟨?_, ?_, ?_, ⟨?_, ?_, ?_, ?_⟩, ?_⟩
  · intro g hg
    obtain ⟨f, hf, rfl⟩ := List.mem_map.mp hg
    change f.hdr.key = _
    rw [h.hdr f hf]
    rfl
  · intro g hg
    obtain ⟨f, hf, rfl⟩ := List.mem_map.mp hg
    change f.hdr.hl = 5
    rw [h.hdr f hf]
    exact hhl
  · intro g hg
    obtain ⟨f, hf, rfl⟩ := List.mem_map.mp hg
    have hle' := hle hf
    change f.payload.length = f.hdr.payloadLen.toNat
    refine (payloadLen_of_len ?_ ?_ (by omega)).symm
    · rw [h.hdr f hf]
      exact hhl
    · rw [h.hdr f hf]
  · exact (List.isChain_map _).mpr h.seamless
  · intro g hg
    rw [List.head?_map] at hg
    obtain ⟨f, hf, rfl⟩ := Option.map_eq_some_iff.mp hg
    exact h.start f hf
  · intro g hg
    rw [List.getLast?_map] at hg
    obtain ⟨f, hf, rfl⟩ := Option.map_eq_some_iff.mp hg
    rw [flatMap_received, h.flat, ← Nat.zero_add octets.length]
    exact h.stop f hf
  · intro g hg
    obtain ⟨f, hf, rfl⟩ := List.mem_map.mp hg
    change f.helper.lo < f.helper.hi
    have hhi := h.hi f hf
    have hpos := h.pos f hf
    omega
  · intro g hg
    obtain ⟨f, hf, rfl⟩ := List.mem_map.mp hg
    rw [List.getLast?_map, Option.mem_map]
    refine (h.last f hf).trans ⟨fun hlast => ⟨f, hlast, rfl⟩, ?_⟩
    rintro ⟨x, hx, heq⟩
    have hhdr : x.received.hdr = f.received.hdr := congrArg IpFragment.hdr heq
    rw [← h.last f hf]
    exact (congrArg (fun o => o.offset &&& ipMf = 0) hhdr).mp
      ((h.last x (List.mem_of_getLast? hx)).mpr hx)

end Cut

section RoundTrip

variable {key : UInt32 × UInt32 × UInt16} {fs : List IpFragment} {l : List ReassData} {t : Reass}

/-- The sender sends one datagram. -/
def onlyDatagram (key : UInt32 × UInt32 × UInt16) (fs : List IpFragment)
    (k : UInt32 × UInt32 × UInt16) : List IpFragment :=
  if k = key then fs else []

@[simp] theorem onlyDatagram_self (key : UInt32 × UInt32 × UInt16) (fs : List IpFragment) :
    onlyDatagram key fs key = fs := if_pos rfl

theorem onlyDatagram_fragmented (h : Fragmented key fs) (k : UInt32 × UInt32 × UInt16) :
    Fragmented k (onlyDatagram key fs k) := by
  unfold onlyDatagram
  split
  next hk => exact hk ▸ h
  next => exact ⟨by simp, by simp, by simp, ⟨.nil, by simp, by simp, by simp⟩, by simp⟩

theorem sent_onlyDatagram (h : Fragmented key fs) {front : List IpFragment} (hsub : front ⊆ fs) :
    ∀ e ∈ front.map ReassEvent.fragment, Sent (onlyDatagram key fs) e := by
  intro e he
  obtain ⟨f, hf, rfl⟩ := List.mem_map.mp he
  change f ∈ onlyDatagram key fs f.hdr.key
  rw [h.key_eq f (hsub hf), onlyDatagram_self]
  exact hsub hf

/-- There is an entry for the datagram, or none. -/
theorem Stored.length_le_one (h : Stored (onlyDatagram key fs) l) : l.length ≤ 1 := by
  have hkey : ∀ r ∈ l, r.iphdr.key = key := by
    intro r hr
    obtain ⟨f, hf, -⟩ := (h.entries r hr).hdr
    by_contra hne
    rw [onlyDatagram, if_neg hne] at hf
    exact absurd hf List.not_mem_nil
  have hall : ∀ k ∈ l.map fun r => r.iphdr.key, k = key := by
    intro k hk
    obtain ⟨r, hr, rfl⟩ := List.mem_map.mp hk
    exact hkey r hr
  have hnodup := h.nodup
  rw [List.eq_replicate_of_mem hall, List.nodup_replicate, List.length_map] at hnodup
  exact hnodup

/-- A condition on the fragments of one datagram that come in their order. -/
theorem meets_inOrder {C : Reass → ReassEvent → Prop} (hfs : Fragmented key fs)
    (h : ∀ front p rest s, fs = front ++ p :: rest →
      reassMachine.run {} (front.map .fragment) = some s → s.reassdatagrams.length ≤ 1 →
        C s (.fragment p)) :
    reassMachine.Meets C {} (fs.map .fragment) := by
  refine Machine.meets_iff.mpr fun front e rest s heq hrun => ?_
  obtain ⟨front, back, hsplit, rfl, hback⟩ := List.map_eq_append_iff.mp heq
  obtain ⟨p, rest, rfl, rfl, -⟩ := List.map_eq_cons_iff.mp hback
  have hsub : front ⊆ fs := hsplit ▸ List.subset_append_left _ _
  refine h front p rest s hsplit hrun ?_
  exact (Stored.run (onlyDatagram_fragmented hfs) (sent_onlyDatagram hfs hsub)
    hrun).1.length_le_one

/-- In their order, each fragment that makes the datagram whole joins the one in front of it. -/
theorem joined_inOrder (hfs : Fragmented key fs) :
    reassMachine.Meets Joined {} (fs.map .fragment) := by
  refine meets_inOrder hfs fun front p rest s hsplit hrun _ => ?_
  intro _ r hr _ _
  have hcome : FromCome ([] ++ front) s := FromCome.empty.run hrun
  have horder := hfs.cut.apart.pairwise_lt hfs.cut.lt
  rw [hsplit] at horder
  have hlt : ∀ q ∈ r.p, q.lo < p.helper.lo := by
    intro q hq
    obtain ⟨f, hf, rfl⟩ := List.mem_map.mp (hcome r hr q hq)
    exact (List.pairwise_append.mp horder).2.2 f hf p (.head _)
  have hjoins : JoinsAt p.helper (r.p ++ []) :=
    joinsAt_append hlt (List.forall_mem_nil _) fun _ _ _ hy => absurd hy (by simp)
  rwa [List.append_nil] at hjoins

theorem map_clen_eq (hone : ∀ f ∈ fs, f.clen = 1) : (fs.map IpFragment.clen).sum = fs.length := by
  rw [List.map_congr_left hone, List.map_const', List.sum_replicate, smul_eq_mul, Nat.mul_one]

theorem filterMap_frag? (fs : List IpFragment) :
    (fs.map ReassEvent.fragment).filterMap ReassEvent.frag? = fs := by
  rw [List.filterMap_map]
  exact List.filterMap_some

/-- As many pbufs come as there are fragments. -/
theorem accounted_inOrder (hone : ∀ f ∈ fs, f.clen = 1)
    (hrun : reassMachine.run {} (fs.map .fragment) = some t) : Accounted t fs.length := by
  have haccount := Accounted.empty.run hrun
  rwa [filterMap_frag?, map_clen_eq hone, Nat.zero_add] at haccount

theorem ample_inOrder (hfs : Fragmented key fs) (hone : ∀ f ∈ fs, f.clen = 1)
    (hlen : fs.length ≤ ipReassMaxPbufs) : reassMachine.Meets Ample {} (fs.map .fragment) := by
  refine meets_inOrder hfs fun front p rest s hsplit hrun hle => ⟨?_, .inl ?_⟩
  · have hclen := hone p (hsplit ▸ List.mem_append_right _ (.head _))
    have haccount := accounted_inOrder
      (fun f hf => hone f (hsplit ▸ List.mem_append_left _ hf)) hrun
    have hcount := haccount.count
    have hbalance := haccount.balance
    rw [hsplit, List.length_append, List.length_cons] at hlen
    omega
  · exact Nat.lt_of_le_of_lt hle (by decide)

/-- With no more than one entry, the list does not break. -/
theorem exists_run_inOrder (hfs : Fragmented key fs) (hone : ∀ f ∈ fs, f.clen = 1) :
    ∃ t, reassMachine.run {} (fs.map .fragment) = some t := by
  have hpbuf : ∀ e ∈ fs.map ReassEvent.fragment, OnePbuf e := by
    intro e he
    obtain ⟨f, hf, rfl⟩ := List.mem_map.mp he
    exact hone f hf
  refine (Orderly.empty.exists_run_iff hpbuf).mpr (meets_inOrder hfs
    fun front p rest s _ _ hle _ _ hown => ?_)
  have hthree := hown.1
  omega

theorem whole_inOrder (hfs : Fragmented key fs)
    (hrun : reassMachine.run {} (fs.map .fragment) = some t) : ∀ d ∈ t.delivered, Whole fs d := by
  intro d hd
  have hsent := sent_onlyDatagram hfs (List.Subset.refl fs)
  have hstored := Stored.run (onlyDatagram_fragmented hfs) hsent hrun
  have hwhole := hstored.2.mpr (joined_inOrder hfs) d hd
  unfold onlyDatagram at hwhole
  split at hwhole
  · exact hwhole
  · obtain ⟨f, hf, -⟩ := hwhole.hdr
    exact absurd hf (by simp)

/-- Two datagrams would take more pbufs than came. -/
theorem Accounted.delivered_eq {n : Nat} {d : IpDatagram} (h : Accounted t n) (hn : 0 < n)
    (hclen : ∀ d ∈ t.delivered, d.clen = n) (hd : d ∈ t.delivered) : t.delivered = [d] := by
  obtain ⟨front, back, hsplit⟩ := List.append_of_mem hd
  have hbalance := h.balance
  rw [hsplit, List.map_append, List.map_cons, List.sum_append, List.sum_cons,
    hclen d hd] at hbalance
  have hnone : front ++ back = [] := by
    refine List.eq_nil_iff_forall_not_mem.mpr fun x hx => ?_
    have hsub : (front ++ back).Sublist (front ++ d :: back) :=
      .append_left (List.sublist_cons_self _ _) _
    have hle := List.le_sum_of_mem (List.mem_map_of_mem (f := IpDatagram.clen) hx)
    rw [List.map_append, List.sum_append, hclen x (hsplit ▸ hsub.subset hx)] at hle
    omega
  obtain ⟨rfl, rfl⟩ := List.append_eq_nil_iff.mp hnone
  exact hsplit

/-- The fragments of a datagram, in their order, are put together when there is room for them all,
and never when there is not. -/
theorem delivered_inOrder (hfs : Fragmented key fs) (hne : fs ≠ []) (hone : ∀ f ∈ fs, f.clen = 1)
    (hrun : reassMachine.run {} (fs.map .fragment) = some t) :
    (ipReassMaxPbufs < fs.length → t.delivered = []) ∧
      (fs.length ≤ ipReassMaxPbufs → ∃ d, t.delivered = [d] ∧ Whole fs d) := by
  have haccount := accounted_inOrder hone hrun
  have hwhole := whole_inOrder hfs hrun
  have hclen : ∀ d ∈ t.delivered, d.clen = fs.length := fun d hd =>
    (hwhole d hd).clen.trans (map_clen_eq hone)
  refine ⟨fun hlt => ?_, fun hle => ?_⟩
  · refine List.eq_nil_iff_forall_not_mem.mpr fun d hd => ?_
    have hpassed := haccount.passed d hd
    rw [hclen d hd] at hpassed
    omega
  · have hall : ∀ f ∈ onlyDatagram key fs key, .fragment f ∈ fs.map ReassEvent.fragment := by
      intro f hf
      rw [onlyDatagram_self] at hf
      exact List.mem_map_of_mem hf
    obtain ⟨d, hd, -⟩ := exists_delivered (onlyDatagram_fragmented hfs)
      (sent_onlyDatagram hfs (List.Subset.refl fs)) hrun (ample_inOrder hfs hone hle)
      (by rwa [onlyDatagram_self]) hall
    exact ⟨d, haccount.delivered_eq (List.length_pos_iff.mpr hne) hclen hd, hwhole d hd⟩

end RoundTrip

section Frag

variable {iphdr : IpHdr} {mtu : Nat} {octets : List UInt8} {fs : List IpFragment}
  {room : Nat → Bool} {p : List UInt8} {ps : List (List UInt8)}

/-- What is put together from the fragments of a datagram is the datagram. -/
theorem CutFrom.eq_of_whole {d : IpDatagram} (h : CutFrom iphdr mtu 0 octets fs)
    (hoffset : iphdr.offset = 0) (hlen : iphdr.len = .ofNat (octets.length + ipHlen))
    (hwhole : Whole (fs.map IpFragment.received) d) : d = ⟨iphdr, octets, fs.length⟩ := by
  have hclen : ((fs.map IpFragment.received).map IpFragment.clen).sum = fs.length := by
    rw [map_clen_eq clen_received, List.length_map]
  obtain ⟨f, hf, hdr⟩ := hwhole.hdr
  obtain ⟨g, hg, rfl⟩ := List.mem_map.mp (List.mem_of_mem_head? hf)
  have hhdr : d.hdr = iphdr := by
    rw [hdr, flatMap_received, h.flat, ← hlen, ← hoffset]
    change { g.hdr with len := iphdr.len, offset := iphdr.offset } = iphdr
    rw [h.hdr g hg]
  have hpayload : d.payload = octets := by
    rw [hwhole.payload, flatMap_received, h.flat]
  rw [← hhdr, ← hpayload, ← hclen, ← hwhole.clen]

/-- A datagram that is cut where there is room for its fragments is put together again from them,
when it is no longer than as many fragments can be as may be queued, and else nothing is passed
on. -/
theorem frag_reass (hmtu : ipHlen + 8 ≤ mtu) (hhl : iphdr.hl = 5) (hoffset : iphdr.offset = 0)
    (hp : ipHlen ≤ p.length) (hlen : iphdr.len.toNat = (p :: ps).flatten.length)
    (hne : ipHlen < (p :: ps).flatten.length) (hroom : ∀ i, room i = true) :
    ∃ fs t, ipFrag mtu iphdr room (p :: ps) = some (true, fs) ∧
      reassMachine.run {} (fs.map fun f => .fragment f.received) = some t ∧
      t.delivered =
        if (p :: ps).flatten.length - ipHlen ≤
            (ipReassMaxPbufs - 1) * ((mtu - ipHlen) / 8 * 8) + (mtu - ipHlen) then
          [⟨iphdr, (p :: ps).flatten.drop ipHlen, fs.length⟩]
        else [] := by
  obtain ⟨ok, fs, hfrag, hcut, hok⟩ := ipFrag_spec hmtu hhl hoffset hp hlen
  obtain rfl := hok hroom
  have hcut := hcut rfl
  have hlength : ((p :: ps).flatten.drop ipHlen).length + ipHlen = iphdr.len.toNat := by
    rw [List.length_drop, hlen]
    omega
  have hlt := iphdr.len.toNat_lt
  have hfs := hcut.fragmented hhl (by omega)
  have hnil : fs.map IpFragment.received ≠ [] := by
    intro hnil
    have hzero := hcut.eq_nil_iff.mpr (List.map_eq_nil_iff.mp hnil)
    rw [hzero, List.length_nil] at hlength
    omega
  obtain ⟨t, hrun⟩ := exists_run_inOrder hfs clen_received
  obtain ⟨hover, hfit⟩ := delivered_inOrder hfs hnil clen_received hrun
  rw [List.length_map] at hover hfit
  rw [List.map_map] at hrun
  have hcount : fs.length ≤ ipReassMaxPbufs ↔ _ := hcut.count (ipReassMaxPbufs - 1)
  rw [List.length_drop] at hcount
  refine ⟨fs, t, hfrag, hrun, ?_⟩
  split
  next hle =>
    obtain ⟨d, hd, hwhole⟩ := hfit (hcount.mpr hle)
    rw [hd, hcut.eq_of_whole hoffset (by rw [hlength, UInt16.ofNat_toNat]) hwhole]
  next hmore => exact hover (Nat.lt_of_not_le (hcount.not.mpr hmore))

/-- The header of a datagram of twelve octets. -/
def sampleHeader : IpHdr where
  hl := 5
  tos := 0
  len := 32
  id := 7
  offset := 0
  ttl := 64
  proto := 17
  src := 0xC0A80701
  dest := 0xC0A80702

/-- It is cut into two fragments, across the pbufs it is in. -/
theorem frag_reass_two : ∃ fs t,
    ipFrag 28 sampleHeader (fun _ => true) [List.replicate 21 1, [2, 3], List.replicate 9 4] =
        some (true, fs) ∧
      reassMachine.run {} (fs.map fun f => .fragment f.received) = some t ∧
      t.delivered = [⟨sampleHeader, 1 :: 2 :: 3 :: List.replicate 9 4, fs.length⟩] :=
  frag_reass (by decide) rfl rfl (by decide) (by decide) (by decide) fun _ => rfl

end Frag

end Adhoc
