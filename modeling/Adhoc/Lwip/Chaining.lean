import Adhoc.Lwip.Reass

/-!
# A fragment in its place

`ip_reass_chain_frag_into_datagram_and_validate` puts a fragment among those of
its datagram that have come.  A sender cuts a datagram into fragments once
(`Fragmented`).  An entry that holds some of them holds them still with one more
(`ReassEntry.take`), unless they are all of them, and then it is the datagram (`Whole`).

The source does not look at the hole in front of a fragment that it puts between
two others, so such a fragment has to join the one in front of it (`JoinsAt`).
-/

namespace Adhoc

open EventMachine Pieces

/-! ## The place of a fragment -/

/-- Where a fragment begins, as a number. -/
def ReassFrag.lo (q : ReassFrag) : Nat := q.start.toNat

/-- Where a fragment ends, as a number. -/
def ReassFrag.hi (q : ReassFrag) : Nat := q.stop.toNat

section Chain

variable {new : ReassFrag} {prev : Option ReassFrag} {valid v : Bool}
  {qs l rest : List ReassFrag}

theorem lo_lt_iff {q q' : ReassFrag} : q.start < q'.start ↔ q.lo < q'.lo := UInt16.lt_iff_toNat_lt

theorem lo_eq_iff {q q' : ReassFrag} : q.start = q'.start ↔ q.lo = q'.lo := UInt16.toNat_inj.symm

theorem hi_eq_iff {q q' : ReassFrag} : q.stop = q'.start ↔ q.hi = q'.lo := UInt16.toNat_inj.symm

theorem lo_lt_hi_iff {q q' : ReassFrag} : q.start < q'.stop ↔ q.lo < q'.hi :=
  UInt16.lt_iff_toNat_lt

/-- A fragment is put in front of the first that begins behind it.  It is valid when nothing is
missing in front of that, but for what the source does not look at. -/
theorem chainFrag_spec (h : chainFrag new prev valid qs = some (l, v, rest)) :
    ∃ pre, qs = pre ++ rest ∧ l = pre ++ new :: rest ∧
      (∀ q ∈ pre, q.lo < new.lo ∧ q.hi ≤ new.lo) ∧ (∀ q ∈ rest.head?, new.lo < q.lo) ∧
      (v = true ↔ valid = true ∧ Seamless ReassFrag.lo ReassFrag.hi (prev.toList ++ pre) ∧
        (rest = [] → ∀ x ∈ (prev.toList ++ pre).getLast?, x.hi = new.lo)) := by
  induction qs generalizing prev valid l with
  | nil =>
      cases prev with
      | none =>
          obtain ⟨rfl, rfl, rfl⟩ : [new] = l ∧ valid = v ∧ [] = rest := by
            simpa [chainFrag] using h
          exact ⟨[], rfl, rfl, List.forall_mem_nil _, by simp, by simp [Seamless]⟩
      | some x =>
          simp only [chainFrag, ne_eq, ite_not, Option.some.injEq, Prod.mk.injEq] at h
          obtain ⟨rfl, rfl, rfl⟩ := h
          refine ⟨[], rfl, rfl, List.forall_mem_nil _, by simp, ?_⟩
          by_cases hx : x.stop = new.start
          · simp [Seamless, hx, hi_eq_iff.mp hx]
          · simp [Seamless, hx, hi_eq_iff.not.mp hx]
  | cons q qs ih =>
      by_cases hlt : new.start < q.start
      · have hplaced : l = new :: q :: qs ∧ v = valid ∧ rest = q :: qs := by
          cases prev with
          | none =>
              simp only [chainFrag, if_pos hlt, Option.some.injEq, Prod.mk.injEq] at h
              exact ⟨h.1.symm, h.2.1.symm, h.2.2.symm⟩
          | some x =>
              simp only [chainFrag, if_pos hlt, Option.ite_none_left_eq_some, Option.some.injEq,
                Prod.mk.injEq] at h
              exact ⟨h.2.1.symm, h.2.2.1.symm, h.2.2.2.symm⟩
        obtain ⟨rfl, rfl, rfl⟩ := hplaced
        refine ⟨[], rfl, rfl, List.forall_mem_nil _, fun r hr => ?_, ?_⟩
        · obtain rfl := Option.some.inj hr
          exact lo_lt_iff.mp hlt
        · cases prev <;> simp [Seamless]
      · by_cases heq : new.start = q.start
        · cases prev <;> simp [chainFrag, heq] at h
        · by_cases hover : new.start < q.stop
          · cases prev <;> simp [chainFrag, hlt, heq, hover] at h
          · obtain ⟨valid', l', hchain, rfl, hvalid'⟩ : ∃ valid' l',
                chainFrag new (some q) valid' qs = some (l', v, rest) ∧ q :: l' = l ∧
                  (valid' = true ↔ valid = true ∧ ∀ x ∈ prev, x.hi = q.lo) := by
              cases prev with
              | none =>
                  obtain ⟨l', hchain, hl⟩ : ∃ l',
                      chainFrag new (some q) valid qs = some (l', v, rest) ∧ q :: l' = l := by
                    simpa [chainFrag, hlt, heq, hover] using h
                  exact ⟨valid, l', hchain, hl, by simp⟩
              | some x =>
                  obtain ⟨l', hchain, hl⟩ : ∃ l',
                      chainFrag new (some q) (if x.stop ≠ q.start then false else valid) qs =
                        some (l', v, rest) ∧ q :: l' = l := by
                    simpa [chainFrag, hlt, heq, hover] using h
                  refine ⟨_, l', hchain, hl, ?_⟩
                  by_cases hx : x.stop = q.start
                  · simp [hx, hi_eq_iff.mp hx]
                  · simp [hx, hi_eq_iff.not.mp hx]
            obtain ⟨pre, rfl, rfl, hpre, hbefore, hv⟩ := ih hchain
            have hq : q.lo < new.lo ∧ q.hi ≤ new.lo := by
              rw [lo_lt_iff] at hlt
              rw [lo_eq_iff] at heq
              rw [lo_lt_hi_iff] at hover
              omega
            refine ⟨q :: pre, rfl, rfl, List.forall_mem_cons.mpr ⟨hq, hpre⟩, hbefore, ?_⟩
            rw [hv, hvalid']
            cases prev with
            | none => simp [Seamless]
            | some x => simp [Seamless, List.isChain_cons_cons, and_assoc]

/-- A fragment is thrown away where it begins with another one or runs into it. -/
theorem exists_of_chainFrag_eq_none (h : chainFrag new prev valid qs = none)
    (hprev : ∀ x ∈ prev, x.hi ≤ new.lo) :
    ∃ q ∈ qs, new.lo = q.lo ∨ q.lo < new.lo ∧ new.lo < q.hi ∨ new.lo < q.lo ∧ q.lo < new.hi := by
  induction qs generalizing prev valid with
  | nil => cases prev <;> simp [chainFrag] at h
  | cons q qs ih =>
      by_cases hlt : new.start < q.start
      · cases prev with
        | none => simp [chainFrag, hlt] at h
        | some x =>
            have hx := hprev x rfl
            simp only [chainFrag, if_pos hlt, ite_eq_left_iff, not_or, reduceCtorEq,
              imp_false, Classical.not_and_iff_not_or_not, not_not] at h
            rw [lo_lt_hi_iff, gt_iff_lt, lo_lt_hi_iff] at h
            rw [lo_lt_iff] at hlt
            exact ⟨q, .head _, by omega⟩
      · by_cases heq : new.start = q.start
        · exact ⟨q, .head _, .inl (lo_eq_iff.mp heq)⟩
        · rw [lo_lt_iff] at hlt
          by_cases hover : new.start < q.stop
          · rw [lo_lt_hi_iff] at hover
            rw [lo_eq_iff] at heq
            exact ⟨q, .head _, .inr (.inl ⟨by omega, hover⟩)⟩
          · obtain ⟨valid', hrec⟩ : ∃ valid', chainFrag new (some q) valid' qs = none := by
              rw [← lo_lt_iff] at hlt
              cases prev <;> simp only [chainFrag, if_neg hlt, if_neg heq, if_neg hover,
                Option.map_eq_none_iff] at h <;> exact ⟨_, h⟩
            rw [lo_lt_hi_iff] at hover
            have hq : ∀ x ∈ some q, x.hi ≤ new.lo := by
              intro x hx
              obtain rfl := Option.some.inj hx
              omega
            obtain ⟨r, hr, hcases⟩ := ih hrec hq
            exact ⟨r, .tail _ hr, hcases⟩

theorem noHolesAfter_iff {x : ReassFrag} :
    noHolesAfter x qs = true ↔ Seamless ReassFrag.lo ReassFrag.hi (x :: qs) := by
  induction qs generalizing x with
  | nil => simp [noHolesAfter, Seamless]
  | cons q qs ih =>
      rw [noHolesAfter, Seamless, List.isChain_cons_cons, ← hi_eq_iff]
      by_cases hx : x.stop = q.start
      · simpa [hx, Seamless] using ih (x := q)
      · simp [hx]

/-- What the entry of a datagram has after a fragment, and when it is a datagram. -/
theorem chainFragAndValidate_spec {ipr : ReassData}
    (h : chainFragAndValidate ipr new = some (l, v)) :
    ∃ pre rest, ipr.p = pre ++ rest ∧ l = pre ++ new :: rest ∧
      (∀ q ∈ pre, q.lo < new.lo ∧ q.hi ≤ new.lo) ∧ (∀ q ∈ rest.head?, new.lo < q.lo) ∧
      (v = true ↔ ipr.lastfrag = true ∧ Seamless ReassFrag.lo ReassFrag.hi pre ∧
        (rest = [] → ∀ x ∈ pre.getLast?, x.hi = new.lo) ∧ (∀ q ∈ l.head?, q.lo = 0) ∧
        Seamless ReassFrag.lo ReassFrag.hi (new :: rest)) := by
  obtain ⟨⟨l', v', rest⟩, hchain, heq⟩ := Option.map_eq_some_iff.mp h
  simp only [Prod.mk.injEq] at heq
  obtain ⟨rfl, rfl⟩ := heq
  obtain ⟨pre, hsplit, rfl, hpre, hbefore, hvalid⟩ := chainFrag_spec hchain
  refine ⟨pre, rest, hsplit, rfl, hpre, hbefore, ?_⟩
  simp only [Option.toList_none, List.nil_append, true_and] at hvalid
  have hstart : ((pre ++ new :: rest).head?.any fun q => decide (q.start = 0)) = true ↔
      ∀ q ∈ (pre ++ new :: rest).head?, q.lo = 0 := by
    cases pre with
    | nil => simp [ReassFrag.lo, ← UInt16.toNat_inj]
    | cons q pre => simp [ReassFrag.lo, ← UInt16.toNat_inj]
  rw [Bool.and_eq_true, Bool.and_eq_true, Bool.and_eq_true, hvalid, hstart, noHolesAfter_iff]
  simp only [and_assoc]

end Chain

/-! ## What the sender sends -/

/-- The fragments of a datagram. -/
structure Fragmented (key : UInt32 × UInt32 × UInt16) (fs : List IpFragment) : Prop where
  key_eq : ∀ f ∈ fs, f.hdr.key = key
  hl : ∀ f ∈ fs, f.hdr.hl = 5
  len : ∀ f ∈ fs, f.payload.length = f.hdr.payloadLen.toNat
  cut : Parted (fun f => f.helper.lo) (fun f => f.helper.hi)
    (fs.flatMap IpFragment.payload).length fs
  last : ∀ f ∈ fs, f.hdr.offset &&& ipMf = 0 ↔ f ∈ fs.getLast?

/-- The datagram is what the fragments were cut from. -/
structure Whole (fs : List IpFragment) (d : IpDatagram) : Prop where
  hdr : ∃ f ∈ fs.head?, d.hdr = { f.hdr with
    len := .ofNat ((fs.flatMap IpFragment.payload).length + ipHlen), offset := 0 }
  payload : d.payload = fs.flatMap IpFragment.payload
  clen : d.clen = (fs.map IpFragment.clen).sum

/-- The entry of a datagram, some of whose fragments have come. -/
structure ReassEntry (fs : List IpFragment) (r : ReassData) : Prop where
  mem : ∀ q ∈ r.p, q ∈ fs.map IpFragment.helper
  apart : InOrder ReassFrag.lo ReassFrag.hi r.p
  hdr : ∃ f ∈ fs, r.iphdr = f.hdr
  first : ∀ f ∈ fs.head?, f.helper ∈ r.p → r.iphdr = f.hdr
  last : ∀ f ∈ fs.getLast?, r.lastfrag = true ↔ f.helper ∈ r.p
  len : r.lastfrag = true → r.datagramLen.toNat = (fs.flatMap IpFragment.payload).length
  ne : r.p ≠ fs.map IpFragment.helper

section Entries

variable {key : UInt32 × UInt32 × UInt16} {fs : List IpFragment} {p : IpFragment}
  {r : ReassData} {l : List ReassFrag}

theorem Fragmented.cut_helper (h : Fragmented key fs) :
    Parted ReassFrag.lo ReassFrag.hi (fs.flatMap IpFragment.payload).length
      (fs.map IpFragment.helper) where
  seamless := (List.isChain_map _).mpr h.cut.seamless
  start q hq := by
    rw [List.head?_map] at hq
    obtain ⟨f, hf, rfl⟩ := Option.map_eq_some_iff.mp hq
    exact h.cut.start f hf
  stop q hq := by
    rw [List.getLast?_map] at hq
    obtain ⟨f, hf, rfl⟩ := Option.map_eq_some_iff.mp hq
    exact h.cut.stop f hf
  lt q hq := by
    obtain ⟨f, hf, rfl⟩ := List.mem_map.mp hq
    exact h.cut.lt f hf

/-- A fragment is as long as the octets it has. -/
theorem Fragmented.hi_sub_lo (h : Fragmented key fs) {f : IpFragment} (hf : f ∈ fs) :
    f.helper.hi - f.helper.lo = f.payload.length := by
  have hlt : f.hdr.fragOffset.toNat < (f.hdr.fragOffset + f.hdr.payloadLen).toNat := h.cut.lt f hf
  change (f.hdr.fragOffset + f.hdr.payloadLen).toNat - f.hdr.fragOffset.toNat = _
  rw [h.len f hf]
  rw [UInt16.toNat_add] at hlt ⊢
  have hoff := f.hdr.fragOffset.toNat_lt
  have hlen := f.hdr.payloadLen.toNat_lt
  omega

theorem Fragmented.eq_of_helper_eq (h : Fragmented key fs) {f g : IpFragment} (hf : f ∈ fs)
    (hg : g ∈ fs) (heq : f.helper = g.helper) : f = g :=
  h.cut.eq_of_lo_eq hf hg (congrArg ReassFrag.lo heq)

theorem fragOffset_eq_zero_iff (h : IpHdr) :
    h.fragOffset.toNat = 0 ↔ h.offset &&& ipOffmask = 0 := by
  have hle : (h.offset &&& ipOffmask).toNat ≤ 0x1FFF := by
    rw [UInt16.toNat_and]
    exact Nat.and_le_right
  rw [IpHdr.fragOffset, UInt16.toNat_mul, ← UInt16.toNat_inj]
  change (h.offset &&& ipOffmask).toNat * 8 % 2 ^ 16 = 0 ↔ (h.offset &&& ipOffmask).toNat = 0
  omega

/-- The first fragment is the one without an offset. -/
theorem Fragmented.first_iff (h : Fragmented key fs) (hp : p ∈ fs) :
    p.hdr.offset &&& ipOffmask = 0 ↔ p ∈ fs.head? := by
  rw [← fragOffset_eq_zero_iff]
  constructor
  · intro hzero
    cases hhead : fs.head? with
    | none => exact absurd hp (List.head?_eq_none_iff.mp hhead ▸ List.not_mem_nil)
    | some f =>
        have hstart : f.helper.lo = 0 := h.cut.start f hhead
        rw [h.cut.eq_of_lo_eq (List.mem_of_mem_head? hhead) hp (hstart.trans hzero.symm)]
        rfl
  · exact h.cut.start p

@[simp] theorem noteHeader_p (h : IpHdr) (r : ReassData) : (r.noteHeader h).p = r.p := by
  unfold ReassData.noteHeader
  by_cases hmf : h.offset &&& ipMf = 0 <;> simp [hmf]

@[simp] theorem noteHeader_iphdr (h : IpHdr) (r : ReassData) :
    (r.noteHeader h).iphdr =
      if h.offset &&& ipOffmask = 0 ∧ r.iphdr.offset &&& ipOffmask ≠ 0 then h else r.iphdr := by
  unfold ReassData.noteHeader
  by_cases hmf : h.offset &&& ipMf = 0 <;> simp [hmf]

@[simp] theorem noteHeader_lastfrag (h : IpHdr) (r : ReassData) :
    (r.noteHeader h).lastfrag = (r.lastfrag || decide (h.offset &&& ipMf = 0)) := by
  unfold ReassData.noteHeader
  by_cases hmf : h.offset &&& ipMf = 0 <;> simp [hmf]

@[simp] theorem noteHeader_datagramLen (h : IpHdr) (r : ReassData) :
    (r.noteHeader h).datagramLen =
      if h.offset &&& ipMf = 0 then h.fragOffset + h.payloadLen else r.datagramLen := by
  unfold ReassData.noteHeader
  by_cases hmf : h.offset &&& ipMf = 0 <;> simp [hmf]

/-- The entry of a datagram before its first fragment. -/
theorem ReassEntry.fresh (hp : p ∈ fs) : ReassEntry fs { iphdr := p.hdr } where
  mem _ h := nomatch h
  apart := .nil
  hdr := ⟨p, hp, rfl⟩
  first _ _ h := nomatch h
  last _ _ := iff_of_false Bool.false_ne_true List.not_mem_nil
  len h := nomatch h
  ne h := List.ne_nil_of_mem hp (List.map_eq_nil_iff.mp h.symm)

/-- The header of a datagram becomes that of its first fragment once that comes. -/
theorem ReassEntry.noteHeader_first (h : ReassEntry fs r) (hfs : Fragmented key fs) {f : IpFragment}
    (hf : f ∈ fs.head?) (hcome : f.helper ∈ r.p ∨ f = p) : (r.noteHeader p.hdr).iphdr = f.hdr := by
  have hfmem := List.mem_of_mem_head? hf
  have hfzero := (hfs.first_iff hfmem).mpr hf
  obtain ⟨g, hg, hrg⟩ := h.hdr
  rw [noteHeader_iphdr]
  rcases hcome with hcome | rfl
  · rw [h.first f hf hcome, if_neg fun hnot => hnot.2 hfzero]
  · split
    next => rfl
    next hnot =>
      have hgzero : g.hdr.offset &&& ipOffmask = 0 := by
        by_contra hne
        exact hnot ⟨hfzero, hrg ▸ hne⟩
      rw [hrg, Option.some.inj (((hfs.first_iff hg).mp hgzero).symm.trans hf)]

theorem ReassEntry.noteHeader_hdr (h : ReassEntry fs r) (hp : p ∈ fs) :
    ∃ f ∈ fs, (r.noteHeader p.hdr).iphdr = f.hdr := by
  rw [noteHeader_iphdr]
  split
  · exact ⟨p, hp, rfl⟩
  · exact h.hdr

theorem ReassEntry.noteHeader_len (h : ReassEntry fs r) (hfs : Fragmented key fs) (hp : p ∈ fs)
    (hlast : (r.noteHeader p.hdr).lastfrag = true) :
    (r.noteHeader p.hdr).datagramLen.toNat = (fs.flatMap IpFragment.payload).length := by
  rw [noteHeader_lastfrag, Bool.or_eq_true, decide_eq_true_eq] at hlast
  rw [noteHeader_datagramLen]
  split
  next hmf => exact hfs.cut.stop p ((hfs.last p hp).mp hmf)
  next hmf => exact h.len (hlast.resolve_right hmf)

/-- A fragment that has come already changes nothing but the header. -/
theorem ReassEntry.again (h : ReassEntry fs r) (hfs : Fragmented key fs) (hp : p ∈ fs)
    (hnone : chainFragAndValidate (r.noteHeader p.hdr) p.helper = none) :
    p.helper ∈ r.p ∧ ReassEntry fs (r.noteHeader p.hdr) := by
  have hcut := hfs.cut_helper
  have hmem : p.helper ∈ r.p := by
    have hchain : chainFrag p.helper none true r.p = none := by
      rw [chainFragAndValidate, Option.map_eq_none_iff, noteHeader_p] at hnone
      exact hnone
    obtain ⟨q, hq, hcases⟩ := exists_of_chainFrag_eq_none hchain nofun
    have hqmem := h.mem q hq
    have hpmem := List.mem_map_of_mem (f := IpFragment.helper) hp
    have hqlt := hcut.lt q hqmem
    have hplt := hcut.lt _ hpmem
    rcases hcut.apart.eq_or_le hqmem hpmem with rfl | hle | hle
    · exact hq
    · rcases hcases with heq | hin | hin
      · exact hcut.eq_of_lo_eq hpmem hqmem heq ▸ hq
      · omega
      · omega
    · rcases hcases with heq | hin | hin
      · exact hcut.eq_of_lo_eq hpmem hqmem heq ▸ hq
      · omega
      · omega
  refine ⟨hmem, {
    mem := by simpa using h.mem
    apart := by simpa using h.apart
    hdr := h.noteHeader_hdr hp
    first := fun f hf hcome => h.noteHeader_first hfs hf (.inl (by simpa using hcome))
    last := fun f hf => ?_
    len := h.noteHeader_len hfs hp
    ne := by simpa using h.ne }⟩
  rw [noteHeader_lastfrag, noteHeader_p, Bool.or_eq_true, decide_eq_true_eq, h.last f hf]
  refine or_iff_left_of_imp fun hmf => ?_
  rw [Option.some.inj (hf.symm.trans ((hfs.last p hp).mp hmf))]
  exact hmem

/-- A fragment that comes between two others joins the one in front of it. -/
def JoinsAt (new : ReassFrag) (qs : List ReassFrag) : Prop :=
  qs.IsChain fun a b => a.lo < new.lo → new.lo < b.lo → a.hi = new.lo

/-- Only the two fragments the new one comes between matter. -/
theorem joinsAt_append {pre rest : List ReassFrag} {new : ReassFrag}
    (hpre : ∀ q ∈ pre, q.lo < new.lo) (hrest : ∀ q ∈ rest, new.lo < q.lo)
    (hseam : ∀ x ∈ pre.getLast?, ∀ y ∈ rest.head?, x.hi = new.lo) : JoinsAt new (pre ++ rest) := by
  refine List.isChain_append.mpr ⟨?_, ?_, fun x hx y hy _ _ => hseam x hx y hy⟩
  · refine List.Pairwise.isChain (List.pairwise_of_forall_mem_list fun x _ y hy _ hlt => ?_)
    exact absurd hlt (Nat.lt_asymm (hpre y hy))
  · refine List.Pairwise.isChain (List.pairwise_of_forall_mem_list fun x hx y _ hlt => ?_)
    exact absurd hlt (Nat.lt_asymm (hrest x hx))

/-- A fragment is put in its place.  Either there are more to come, or the datagram is whole. -/
theorem ReassEntry.take {v : Bool} (h : ReassEntry fs r) (hfs : Fragmented key fs) (hp : p ∈ fs)
    (hsome : chainFragAndValidate (r.noteHeader p.hdr) p.helper = some (l, v)) :
    (∀ q, q ∈ l ↔ q = p.helper ∨ q ∈ r.p) ∧
      (v = false → ReassEntry fs { r.noteHeader p.hdr with p := l }) ∧
      (v = true → (Whole fs { r.noteHeader p.hdr with p := l }.datagram ↔
        JoinsAt p.helper r.p)) := by
  have hcut := hfs.cut_helper
  have hpmem := List.mem_map_of_mem (f := IpFragment.helper) hp
  have hplt := hcut.lt _ hpmem
  obtain ⟨pre, rest, hsplit, rfl, hpre, hbefore, hv⟩ := chainFragAndValidate_spec hsome
  rw [noteHeader_p] at hsplit
  have hmem : ∀ q, q ∈ pre ++ p.helper :: rest ↔ q = p.helper ∨ q ∈ r.p := by
    intro q
    rw [hsplit, List.mem_append, List.mem_cons, List.mem_append]
    tauto
  have hsub : ∀ q ∈ pre ++ p.helper :: rest, q ∈ fs.map IpFragment.helper := by
    intro q hq
    rcases (hmem q).mp hq with rfl | hq
    · exact hpmem
    · exact h.mem q hq
  have hapart' : InOrder ReassFrag.lo ReassFrag.hi (pre ++ rest) := hsplit ▸ h.apart
  have hrest : ∀ q ∈ rest, p.helper.hi ≤ q.lo := by
    intro q hq
    have hqmem := hsub q (List.mem_append_right _ (.tail _ hq))
    have hlo : p.helper.lo < q.lo := by
      cases rest with
      | nil => exact nomatch hq
      | cons x rest =>
          have hx := hbefore x rfl
          rcases List.mem_cons.mp hq with rfl | hq
          · exact hx
          · have hxlt := hcut.lt x (hsub x (List.mem_append_right _ (.tail _ (.head _))))
            have hback := (List.pairwise_append.mp hapart').2.1
            have hle := (List.pairwise_cons.mp hback).1 q hq
            omega
    have hqlt := hcut.lt q hqmem
    rcases hcut.apart.eq_or_le hpmem hqmem with rfl | hle | hle
    · exact absurd hlo (Nat.lt_irrefl _)
    · exact hle
    · omega
  have hapart : InOrder ReassFrag.lo ReassFrag.hi (pre ++ p.helper :: rest) :=
    hapart'.insert (fun q hq => (hpre q hq).2) hrest
  have hlast : ∀ f ∈ fs.getLast?, (r.noteHeader p.hdr).lastfrag = true ↔
      f.helper ∈ pre ++ p.helper :: rest := by
    intro f hf
    rw [noteHeader_lastfrag, Bool.or_eq_true, decide_eq_true_eq, h.last f hf, hfs.last p hp, hmem,
      or_comm]
    refine or_congr_left ⟨fun hp' => ?_, fun heq => ?_⟩
    · rw [Option.some.inj (hf.symm.trans hp')]
    · rw [← hfs.eq_of_helper_eq (List.mem_of_getLast? hf) hp heq]
      exact hf
  have hfirst : ∀ f ∈ fs.head?, f.helper ∈ pre ++ p.helper :: rest →
      (r.noteHeader p.hdr).iphdr = f.hdr := by
    intro f hf hcome
    refine h.noteHeader_first hfs hf ?_
    rcases (hmem _).mp hcome with heq | hin
    · exact .inr (hfs.eq_of_helper_eq (List.mem_of_mem_head? hf) hp heq)
    · exact .inl hin
  have hlen := h.noteHeader_len hfs hp
  refine ⟨hmem, fun hfalse => ⟨hsub, hapart, h.noteHeader_hdr hp, hfirst, hlast, hlen, ?_⟩,
    fun htrue => ⟨fun hwhole => ?_, fun hjoins => ?_⟩⟩
  · -- All the fragments would have been found valid.
    intro hall
    change pre ++ p.helper :: rest = fs.map IpFragment.helper at hall
    have hseamless := hcut.seamless
    rw [← hall] at hseamless
    obtain ⟨hfront, hback, hseam⟩ := List.isChain_append.mp hseamless
    have hlastfrag : (r.noteHeader p.hdr).lastfrag = true := by
      cases hgetLast : fs.getLast? with
      | none => exact absurd hp (List.getLast?_eq_none_iff.mp hgetLast ▸ List.not_mem_nil)
      | some f =>
          refine (hlast f hgetLast).mpr (hall ▸ ?_)
          exact List.mem_map_of_mem (List.mem_of_getLast? hgetLast)
    have hvalid : v = true := hv.mpr ⟨hlastfrag, hfront, fun _ x hx => hseam x hx _ rfl,
      fun q hq => hcut.start q (hall ▸ hq), hback⟩
    exact absurd (hvalid.symm.trans hfalse) Bool.false_ne_true.symm
  · -- What is whole is as long as all the fragments, so that there is no hole in it.
    have hsum : ((pre ++ p.helper :: rest).map fun q => q.hi - q.lo).sum =
        (fs.flatMap IpFragment.payload).length := by
      rw [← hwhole.payload]
      change _ = ((pre ++ p.helper :: rest).flatMap ReassFrag.payload).length
      rw [List.length_flatMap]
      refine congrArg List.sum (List.map_congr_left fun q hq => ?_)
      obtain ⟨f, hf, rfl⟩ := List.mem_map.mp (hsub q hq)
      exact hfs.hi_sub_lo hf
    have hseamless := hcut.seamless_of_sum_eq hapart hsub hsum
    obtain ⟨-, -, hseam⟩ := List.isChain_append.mp hseamless
    rw [JoinsAt, hsplit]
    refine joinsAt_append (fun q hq => (hpre q hq).1) (fun q hq => ?_) fun x hx _ _ =>
      hseam x hx _ rfl
    have hq' := hrest q hq
    omega
  · obtain ⟨hlastfrag, hfront, hend, hstart, hback⟩ := hv.mp htrue
    have hseamless : Seamless ReassFrag.lo ReassFrag.hi (pre ++ p.helper :: rest) := by
      refine List.isChain_append.mpr ⟨hfront, hback, fun x hx y hy => ?_⟩
      obtain rfl := Option.some.inj hy
      cases rest with
      | nil => exact hend rfl x hx
      | cons y rest =>
          rw [hsplit] at hjoins
          exact (List.isChain_append.mp hjoins).2.2 x hx y rfl
            (hpre x (List.mem_of_getLast? hx)).1 (hbefore y rfl)
    have hall : pre ++ p.helper :: rest = fs.map IpFragment.helper := by
      cases hgetLast : fs.getLast? with
      | none => exact absurd hp (List.getLast?_eq_none_iff.mp hgetLast ▸ List.not_mem_nil)
      | some f =>
          refine hcut.eq_of_seamless (l := f.helper) hseamless hsub hstart ?_
            ((hlast f hgetLast).mp hlastfrag)
          rw [List.getLast?_map, hgetLast, Option.map_some, Option.mem_some_iff]
    cases hhead : fs.head? with
    | none => exact absurd hp (List.head?_eq_none_iff.mp hhead ▸ List.not_mem_nil)
    | some f =>
        have hiphdr := hfirst f hhead
          (hall ▸ List.mem_map_of_mem (List.mem_of_mem_head? hhead))
        refine ⟨⟨f, hhead, ?_⟩, ?_, ?_⟩
        · unfold ReassData.datagram
          rw [← hlen hlastfrag, ← hiphdr, UInt16.ofNat_add, UInt16.ofNat_toNat]
        · unfold ReassData.datagram
          dsimp only
          rw [hall, List.flatMap_map]
          rfl
        · unfold ReassData.datagram ReassData.clen
          dsimp only
          rw [hall, List.map_map]
          rfl

end Entries

end Adhoc
