import Adhoc.Lib.RefCount

/-!
# Packet buffers

The pool `MEMP_PBUF_POOL` of the stack and the functions of `pbuf.c` that move
references to its pbufs.  A free pbuf is on the list `memp_tab`, and since
`MEMP_SIZE` is 0 the list is threaded through the field `next` of the pbufs.

Two things are observed and not stored by the code.  `underflow` says that a
count has been decremented at 0, and `held` says how many references to a pbuf
somebody has who will release them, links of other pbufs apart.

The lengths, the payload and the flags of a pbuf play no part in who refers to
it and are left out.  `LWIP_ASSERT` tests nothing in this configuration: its
failure branch negates the message, which is never null.
-/

namespace Adhoc

open RefCount

/-! ## The pool -/

/-- `LWIP_MEM_ALIGN_SIZE`. -/
def lwipMemAlignSize (size : Nat) : Nat := (size + 3) / 4 * 4

/-- `PBUF_LINK_HLEN`. -/
def pbufLinkHlen : Nat := 14

/-- `TCP_MSS`. -/
def tcpMss : Nat := 1500 - 0 - 20 - 20

/-- `PBUF_POOL_BUFSIZE`, which is aligned. -/
def pbufPoolBufsize : Nat := lwipMemAlignSize (tcpMss + 40 + pbufLinkHlen)

/-- `PBUF_POOL_SIZE`. -/
def pbufPoolSize : Nat := 16

instance : NeZero pbufPoolSize := ⟨by decide⟩

/-- A pbuf of the pool. -/
abbrev Slot := Fin pbufPoolSize

/-- The pool. -/
structure Pbufs where
  /-- `next` of the pbuf, or of its `struct memp` while it is free. -/
  next : Slot → Option Slot
  ref : Slot → UInt16
  /-- `memp_tab[MEMP_PBUF_POOL]`. -/
  mempTab : Option Slot
  underflow : Bool := false
  held : Slot → Nat := fun _ => 0

/-- `memp_init`: the pbufs are put on the list one after the other. -/
def mempInit : Pbufs where
  next p := if p = 0 then none else some (p - 1)
  ref _ := 0
  mempTab := some 15

/-- `memp_malloc`. -/
def mempMalloc (s : Pbufs) : Option Slot × Pbufs :=
  match s.mempTab with
  | none => (none, s)
  | some p => (some p, { s with mempTab := s.next p })

/-- `memp_free`. -/
def mempFree (p : Slot) (s : Pbufs) : Pbufs :=
  { s with next := Function.update s.next p s.mempTab, mempTab := some p }

/-! ## References -/

/-- The loop of `pbuf_free`.  An iteration that is not the last takes a pbuf out
of use, so the fuel is the number of pbufs and one more. -/
def pbufFreeLoop : Nat → Option Slot → UInt8 → Pbufs → UInt8 × Pbufs
  | 0, _, count, s => (count, s)
  | _ + 1, none, count, s => (count, s)
  | fuel + 1, some p, count, s =>
      let ref := s.ref p - 1
      let t := { s with
        ref := Function.update s.ref p ref
        underflow := s.underflow || s.ref p == 0 }
      if ref = 0 then pbufFreeLoop fuel (s.next p) (count + 1) (mempFree p t)
      else (count, t)

/-- `pbuf_free` of a pbuf. -/
def pbufFree (p : Slot) (s : Pbufs) : UInt8 × Pbufs := pbufFreeLoop (pbufPoolSize + 1) (some p) 0 s

/-- `pbuf_ref`. -/
def pbufRef (p : Slot) (s : Pbufs) : Pbufs :=
  { s with ref := Function.update s.ref p (s.ref p + 1) }

/-- The loop of `pbuf_alloc` for the pbufs after the first.  `p` is the first,
`r` the last so far, and `remLen` falls with every iteration. -/
def pbufAllocTail : Nat → Slot → Slot → Nat → Pbufs → Option Slot × Pbufs
  | 0, p, _, _, s => (some p, s)
  | fuel + 1, p, r, remLen, s =>
      if 0 < remLen then
        match mempMalloc s with
        | (none, s) => (none, (pbufFree p s).2)
        | (some q, s) =>
            pbufAllocTail fuel p q (remLen - min remLen pbufPoolBufsize)
              { s with
                next := Function.update (Function.update s.next q none) r (some q)
                ref := Function.update s.ref q 1 }
      else (some p, s)

/-- `pbuf_alloc(PBUF_RAW, length, PBUF_POOL)`. -/
def pbufAlloc (length : UInt16) (s : Pbufs) : Option Slot × Pbufs :=
  match mempMalloc s with
  | (none, s) => (none, s)
  | (some p, s) =>
      let s := { s with
        next := Function.update s.next p none
        ref := Function.update s.ref p 1 }
      match pbufAllocTail length.toNat p p (length.toNat - min length.toNat pbufPoolBufsize) s with
      | (none, s) => (none, s)
      | (some p, s) => (some p, { s with ref := Function.update s.ref p 1 })

/-- The last pbuf of a chain, `none` if the chain has no end. -/
def lastOfChain : Nat → Slot → Pbufs → Option Slot
  | 0, _, _ => none
  | fuel + 1, p, s =>
      match s.next p with
      | none => some p
      | some q => lastOfChain fuel q s

/-- `pbuf_cat`. -/
def pbufCat (h t : Slot) (s : Pbufs) : Option Pbufs :=
  (lastOfChain pbufPoolSize h s).map fun p => { s with next := Function.update s.next p (some t) }

/-- `pbuf_dechain`. -/
def pbufDechain (p : Slot) (s : Pbufs) : Option Slot × Pbufs :=
  match s.next p with
  | none => (none, s)
  | some q =>
      let (tailGone, s) := pbufFree q { s with next := Function.update s.next p none }
      (if tailGone > 0 then none else some q, s)

/-! ## The books of the pool -/

/-- The counts as numbers. -/
def Pbufs.counts (s : Pbufs) (p : Slot) : Nat := (s.ref p).toNat

/-- The references held, as the excess the counts should have. -/
def Pbufs.owed (s : Pbufs) (p : Slot) : ℤ := s.held p

/-- No count was decremented at 0, the free list is right, and the excess of the
counts is `x`. -/
structure Pbufs.Accounts (s : Pbufs) (x : Slot → ℤ) : Prop where
  no_underflow : s.underflow = false
  books : Books s.next s.counts s.mempTab x

/-- Every count is the number of references there are. -/
def Pbufs.Sound (s : Pbufs) : Prop := s.Accounts s.owed

theorem Pbufs.owed_nonneg (s : Pbufs) : 0 ≤ s.owed := fun _ => Int.natCast_nonneg _

variable {s t : Pbufs} {p q : Slot} {x : Slot → ℤ}

theorem counts_of_ref {c : UInt16} (h : t.ref = Function.update s.ref p c) :
    t.counts = Function.update s.counts p c.toNat := by
  funext q
  by_cases hq : q = p
  · subst hq
    simp [Pbufs.counts, h]
  · simp [Pbufs.counts, h, hq]

theorem counts_eq_zero_iff : s.counts p = 0 ↔ s.ref p = 0 := UInt16.toNat_inj (b := 0)

theorem counts_ne_zero_iff : s.counts p ≠ 0 ↔ s.ref p ≠ 0 := not_congr counts_eq_zero_iff

/-! ### `pbuf_free` -/

theorem pbufFreeLoop_none (fuel : Nat) (count : UInt8) :
    pbufFreeLoop fuel none count s = (count, s) := by
  cases fuel <;> rfl

/-- The last reference to `p` is released. -/
theorem pbufFreeLoop_last {fuel : Nat} {count : UInt8} (hp : s.ref p = 1) :
    pbufFreeLoop (fuel + 1) (some p) count s =
      pbufFreeLoop fuel (s.next p) (count + 1)
        (mempFree p { s with ref := Function.update s.ref p 0 }) := by
  simp [pbufFreeLoop, hp]

/-- The count of `p` is decremented and does not come to 0. -/
theorem pbufFreeLoop_left {fuel : Nat} {count : UInt8} (hone : s.ref p ≠ 1) :
    pbufFreeLoop (fuel + 1) (some p) count s =
      (count, { s with
        ref := Function.update s.ref p (s.ref p - 1)
        underflow := s.underflow || s.ref p == 0 }) := by
  have hleft : s.ref p - 1 ≠ 0 := fun h => hone (by grind)
  simp only [pbufFreeLoop, if_neg hleft]

/-- A reference to `p` is released, and others are left. -/
theorem pbufFreeLoop_shared {fuel : Nat} {count : UInt8} (hzero : s.ref p ≠ 0)
    (hone : s.ref p ≠ 1) :
    pbufFreeLoop (fuel + 1) (some p) count s =
      (count, { s with ref := Function.update s.ref p (s.ref p - 1) }) := by
  rw [pbufFreeLoop_left hone]
  simp [hzero]

/-- There is no reference to `p`. -/
theorem pbufFreeLoop_underflow {fuel : Nat} {count : UInt8} (hp : s.ref p = 0) :
    (pbufFreeLoop (fuel + 1) (some p) count s).2.underflow = true := by
  have hone : s.ref p ≠ 1 := by
    rw [hp]
    decide
  rw [pbufFreeLoop_left hone]
  simp [hp]

/-- What a release of `p` leaves to be released at `q`. -/
theorem release_pending (hx : 0 ≤ x ∧ 0 < x p) (q : Slot) :
    0 ≤ x - one p + one q ∧ 0 < (x - one p + one q) q := by
  have hrest : 0 ≤ x - one p := sub_one_nonneg hx.1 hx.2
  refine ⟨fun a => add_nonneg (hrest a) (one_nonneg q a), ?_⟩
  rw [Pi.add_apply, one_self]
  exact Int.lt_add_one_of_le (hrest q)

/-- The loop of `pbuf_free` takes one reference off the first pbuf, and it comes
to a count of 0 only when the reference was not there.  What the link of a freed
pbuf was counted for is what the next iteration releases. -/
theorem Pbufs.Accounts.freeLoop (fuel : Nat) (count : UInt8) (h : s.Accounts x)
    (hfuel : pbufPoolSize < freeCells s.counts + fuel) :
    let t := (pbufFreeLoop fuel (some p) count s).2
    t.Accounts (x - one p) ∨ t.underflow = true ∧ ¬(0 ≤ x ∧ 0 < x p) := by
  induction fuel generalizing p count s x with
  | zero =>
      have hle : freeCells s.counts ≤ Fintype.card Slot := freeCells_le
      rw [Fintype.card_fin] at hle
      omega
  | succ fuel ih =>
      obtain ⟨hnone, hbooks⟩ := h
      by_cases hzero : s.ref p = 0
      · refine .inr ⟨pbufFreeLoop_underflow hzero, fun hx => ?_⟩
        exact counts_ne_zero_iff.mp (hbooks.count_ne_zero hx.2) hzero
      · have hused : s.counts p ≠ 0 := counts_ne_zero_iff.mpr hzero
        by_cases hone : s.ref p = 1
        · rw [pbufFreeLoop_last hone]
          have hcount : s.counts p = 1 := congrArg UInt16.toNat hone
          set u := mempFree p { s with ref := Function.update s.ref p 0 } with hu
          have hcounts : u.counts = Function.update s.counts p 0 := counts_of_ref (c := 0) rfl
          have hpushed : u.Accounts (x - one p + link (s.next p) 1) := by
            refine ⟨hnone, ?_⟩
            rw [hcounts]
            exact hbooks.push hcount
          have hmore : pbufPoolSize < freeCells u.counts + fuel := by
            rw [hcounts, freeCells_give hused]
            omega
          cases hnext : s.next p with
          | none =>
              rw [pbufFreeLoop_none]
              left
              simpa [hnext] using hpushed
          | some q =>
              rw [hnext, link_some one_ne_zero] at hpushed
              obtain hdone | ⟨hunder, hnot⟩ := ih (p := q) (count + 1) hpushed hmore
              · left
                rwa [add_sub_cancel_right] at hdone
              · exact .inr ⟨hunder, fun hx => hnot (release_pending hx q)⟩
        · rw [pbufFreeLoop_shared hzero hone]
          refine .inl ⟨hnone, ?_⟩
          have hmany : 1 < s.counts p := by
            have hne : s.counts p ≠ 1 := fun h => hone (UInt16.toNat_inj.mp h)
            omega
          have hcounts : ({ s with ref := Function.update s.ref p (s.ref p - 1) } : Pbufs).counts =
              Function.update s.counts p (s.counts p - 1) := by
            rw [counts_of_ref (s := s) rfl, UInt16.toNat_sub_of_le]
            · rfl
            · exact UInt16.le_iff_toNat_le.mpr hmany.le
          rw [hcounts]
          exact hbooks.decrement hmany

/-- `pbuf_free` of a pbuf the caller has a reference to. -/
theorem Pbufs.Accounts.free (h : s.Accounts x) (hx : 0 ≤ x) (hp : 0 < x p) :
    (pbufFree p s).2.Accounts (x - one p) := by
  obtain hdone | ⟨-, hnot⟩ := h.freeLoop (p := p) (pbufPoolSize + 1) 0 (by omega)
  · exact hdone
  · exact absurd ⟨hx, hp⟩ hnot

/-- `pbuf_free` takes back a reference that was given. -/
theorem Pbufs.Accounts.free_given (h : s.Accounts (x + one p)) (hx : 0 ≤ x) :
    (pbufFree p s).2.Accounts x := by
  have hfreed := h.free (p := p) (fun a => add_nonneg (hx a) (one_nonneg p a)) (by
    rw [Pi.add_apply, one_self]
    exact Int.lt_add_one_of_le (hx p))
  rwa [add_sub_cancel_right] at hfreed

/-- `pbuf_free` of a pbuf never leaves the references there were. -/
theorem Pbufs.Accounts.not_free (h : s.Accounts x) : ¬ (pbufFree p s).2.Accounts x := by
  intro hsame
  obtain hdone | ⟨hunder, -⟩ := h.freeLoop (p := p) (pbufPoolSize + 1) 0 (by omega)
  · have heq := congrFun (hdone.books.unique hsame.books) p
    simp at heq
  · exact Bool.false_ne_true (hsame.no_underflow.symm.trans hunder)

/-- The loop does not come to a pbuf nothing in use links to. -/
theorem pbufFreeLoop_ref_zero {fuel : Nat} {o : Option Slot} {count : UInt8} (hp : s.ref p = 0)
    (ho : o ≠ some p) (hlinks : ∀ q, s.ref q ≠ 0 → s.next q ≠ some p) :
    (pbufFreeLoop fuel o count s).2.ref p = 0 := by
  induction fuel generalizing o count s with
  | zero => exact hp
  | succ fuel ih =>
      cases o with
      | none => exact hp
      | some q =>
          have hpq : p ≠ q := fun h => ho (congrArg some h.symm)
          by_cases hone : s.ref q = 1
          · rw [pbufFreeLoop_last hone]
            refine ih (by simpa [mempFree, hpq] using hp) (hlinks q (by rw [hone]; decide)) ?_
            intro r hr
            have hrq : r ≠ q := by
              rintro rfl
              simp [mempFree] at hr
            simp only [mempFree, Function.update_of_ne hrq] at hr ⊢
            exact hlinks r hr
          · rw [pbufFreeLoop_left hone]
            simpa [hpq] using hp

/-- A pbuf with one reference, held by somebody else, is freed under him. -/
theorem Pbufs.Sound.free_held (h : s.Sound) (hheld : s.held p = 1) (href : s.ref p = 1) :
    (pbufFree p s).2.ref p = 0 := by
  have hcount : s.counts p = 1 := congrArg UInt16.toNat href
  have hall : (s.counts p : ℤ) = s.owed p := by rw [Pbufs.owed, hcount, hheld]
  have hlinks : ∀ q, s.ref q ≠ 0 → s.next q ≠ some p := fun q hq =>
    h.books.not_linked hall (counts_ne_zero_iff.mpr hq)
  unfold pbufFree
  rw [pbufFreeLoop_last href]
  refine pbufFreeLoop_ref_zero (by simp [mempFree]) (hlinks p (by rw [href]; decide)) ?_
  intro q hq
  have hqp : q ≠ p := by
    rintro rfl
    simp [mempFree] at hq
  simp only [mempFree, Function.update_of_ne hqp] at hq ⊢
  exact hlinks q hq

@[simp] theorem pbufFreeLoop_held (fuel : Nat) (o : Option Slot) (count : UInt8) (s : Pbufs) :
    (pbufFreeLoop fuel o count s).2.held = s.held := by
  induction fuel generalizing o count s with
  | zero => rfl
  | succ fuel ih =>
      cases o with
      | none => rfl
      | some p =>
          simp only [pbufFreeLoop]
          split
          · rw [ih]
            rfl
          · rfl

@[simp] theorem pbufFree_held (p : Slot) (s : Pbufs) : (pbufFree p s).2.held = s.held :=
  pbufFreeLoop_held ..

/-! ### `pbuf_alloc` -/

/-- How many pbufs hold `length` octets. -/
def pbufsFor (length : Nat) : Nat := (length + (pbufPoolBufsize - 1)) / pbufPoolBufsize

/-- A pbuf is taken from the list. -/
def takePbuf (q : Slot) (s : Pbufs) : Pbufs :=
  { s with
    next := Function.update s.next q none
    ref := Function.update s.ref q 1
    mempTab := s.next q }

theorem counts_takePbuf (q : Slot) (s : Pbufs) :
    (takePbuf q s).counts = Function.update s.counts q 1 := counts_of_ref (c := 1) rfl

theorem Pbufs.Accounts.take (h : s.Accounts x) (hq : s.mempTab = some q) :
    (takePbuf q s).Accounts (x + one q) := by
  refine ⟨h.no_underflow, ?_⟩
  rw [counts_takePbuf]
  exact (hq ▸ h.books).pop

theorem Pbufs.Accounts.head_free (h : s.Accounts x) (hq : s.mempTab = some q) : s.counts q = 0 :=
  (hq ▸ h.books.free).head_free

theorem Pbufs.Accounts.freeCells_take (h : s.Accounts x) (hq : s.mempTab = some q) :
    freeCells (takePbuf q s).counts + 1 = freeCells s.counts := by
  rw [counts_takePbuf]
  exact RefCount.freeCells_take (h.head_free hq) one_ne_zero

/-- One pbuf holds `pbufPoolBufsize` octets. -/
theorem pbufsFor_pos {remLen : Nat} (h : 0 < remLen) :
    pbufsFor remLen = pbufsFor (remLen - min remLen pbufPoolBufsize) + 1 := by
  have hsize : pbufPoolBufsize = 1516 := rfl
  unfold pbufsFor
  rw [hsize]
  omega

/-- A pbuf is chained to `r`. -/
def chainPbuf (r q : Slot) (s : Pbufs) : Pbufs :=
  { s with next := Function.update s.next r (some q) }

theorem Pbufs.Accounts.chain {r : Slot} (h : s.Accounts x) (hr : s.ref r ≠ 0)
    (hlast : s.next r = none) (q : Slot) : (chainPbuf r q s).Accounts (x - one q) :=
  ⟨h.no_underflow, h.books.attach (counts_ne_zero_iff.mpr hr) hlast q⟩

/-- A pbuf taken from the list and chained to `r` is owed to nobody. -/
theorem Pbufs.Accounts.extend {r : Slot} (h : s.Accounts x) (hr : s.ref r ≠ 0)
    (hlast : s.next r = none) (hq : s.mempTab = some q) :
    r ≠ q ∧ (chainPbuf r q (takePbuf q s)).Accounts x := by
  have hrq : r ≠ q := fun heq => counts_ne_zero_iff.mpr hr (heq ▸ h.head_free hq)
  have hchained := (h.take hq).chain (r := r) (by simpa [takePbuf, hrq] using hr)
    (by simpa [takePbuf, hrq] using hlast) q
  rw [add_sub_cancel_right] at hchained
  exact ⟨hrq, hchained⟩

/-- The pbufs after the first are allocated and chained, or the chain is freed. -/
theorem Pbufs.Accounts.allocTail {fuel remLen : Nat} {r : Slot} {o : Option Slot}
    (h : s.Accounts (x + one p)) (hx : 0 ≤ x) (hp : s.ref p = 1) (hr : s.ref r ≠ 0)
    (hlast : s.next r = none) (hfuel : remLen ≤ fuel)
    (hrun : pbufAllocTail fuel p r remLen s = (o, t)) :
    (o = none ∧ t.Accounts x ∧ freeCells s.counts < pbufsFor remLen) ∨
      (o = some p ∧ t.Accounts (x + one p) ∧ t.ref p = 1 ∧
        pbufsFor remLen ≤ freeCells s.counts) := by
  induction fuel generalizing s r remLen with
  | zero =>
      obtain rfl := Nat.le_zero.mp hfuel
      obtain ⟨rfl, rfl⟩ := Prod.mk.inj hrun
      exact .inr ⟨rfl, h, hp, Nat.zero_le _⟩
  | succ fuel ih =>
      by_cases hpos : 0 < remLen
      · cases hq : s.mempTab with
        | none =>
            simp only [pbufAllocTail, mempMalloc, hq, if_pos hpos, Prod.mk.injEq] at hrun
            obtain ⟨rfl, rfl⟩ := hrun
            have hempty : freeCells s.counts = 0 := (hq ▸ h.books.free).freeCells_eq_zero
            exact .inl ⟨rfl, h.free_given hx,
              by rw [hempty, pbufsFor_pos hpos]; exact Nat.succ_pos _⟩
        | some q =>
            simp only [pbufAllocTail, mempMalloc, hq, if_pos hpos] at hrun
            obtain ⟨hrq, hchained⟩ := h.extend hr hlast hq
            have hpq : p ≠ q := by
              rintro rfl
              rw [counts_eq_zero_iff.mp (h.head_free hq)] at hp
              exact absurd hp (by decide)
            have hless := h.freeCells_take hq
            have hsize : 0 < pbufPoolBufsize := by decide
            obtain ⟨ho, hacc, hfew⟩ | ⟨ho, hacc, hfirst, hfits⟩ := ih hchained
              (by simpa [chainPbuf, takePbuf, hpq] using hp) (by simp [chainPbuf, takePbuf])
              (by simp [chainPbuf, takePbuf, hrq.symm]) (by omega) hrun
            · refine .inl ⟨ho, hacc, ?_⟩
              rw [pbufsFor_pos hpos, ← hless]
              exact Nat.succ_lt_succ hfew
            · refine .inr ⟨ho, hacc, hfirst, ?_⟩
              rw [pbufsFor_pos hpos, ← hless]
              exact Nat.succ_le_succ hfits
      · simp only [pbufAllocTail, if_neg hpos, Prod.mk.injEq] at hrun
        obtain ⟨rfl, rfl⟩ := hrun
        obtain rfl : remLen = 0 := by omega
        exact .inr ⟨rfl, h, hp, Nat.zero_le _⟩

/-- How many pbufs `pbuf_alloc` needs: the first, and those after it. -/
def pbufsNeeded (length : UInt16) : Nat :=
  pbufsFor (length.toNat - min length.toNat pbufPoolBufsize) + 1

/-- `pbuf_alloc` gives its caller one reference, to a chain as long as needed, or
there are not enough pbufs and it changes nothing that is owed. -/
theorem Pbufs.Accounts.alloc {length : UInt16} {o : Option Slot} (h : s.Accounts x) (hx : 0 ≤ x)
    (hrun : pbufAlloc length s = (o, t)) :
    (o = none ∧ t.Accounts x ∧ freeCells s.counts < pbufsNeeded length) ∨
      (∃ p, o = some p ∧ t.Accounts (x + one p) ∧ pbufsNeeded length ≤ freeCells s.counts) := by
  cases hp : s.mempTab with
  | none =>
      simp only [pbufAlloc, mempMalloc, hp, Prod.mk.injEq] at hrun
      obtain ⟨rfl, rfl⟩ := hrun
      have hempty : freeCells s.counts = 0 := (hp ▸ h.books.free).freeCells_eq_zero
      exact .inl ⟨rfl, h, hempty ▸ Nat.succ_pos _⟩
  | some p =>
      simp only [pbufAlloc, mempMalloc, hp] at hrun
      have hless := h.freeCells_take hp
      cases htail : pbufAllocTail length.toNat p p
          (length.toNat - min length.toNat pbufPoolBufsize) (takePbuf p s) with
      | mk o' t' =>
          simp only [takePbuf] at htail
          rw [htail] at hrun
          obtain ⟨rfl, hacc, hfew⟩ | ⟨rfl, hacc, hfirst, hfits⟩ := (h.take hp).allocTail hx
            (by simp [takePbuf]) (by simp [takePbuf]) (by simp [takePbuf]) (Nat.sub_le ..) htail
          · obtain ⟨rfl, rfl⟩ := Prod.mk.inj hrun
            refine .inl ⟨rfl, hacc, ?_⟩
            unfold pbufsNeeded
            omega
          · obtain ⟨rfl, rfl⟩ := Prod.mk.inj hrun
            refine .inr ⟨p, rfl, ?_, ?_⟩
            · rw [← hfirst, Function.update_eq_self]
              exact hacc
            · unfold pbufsNeeded
              omega

@[simp] theorem pbufAllocTail_held (fuel : Nat) (p r : Slot) (remLen : Nat) (s : Pbufs) :
    (pbufAllocTail fuel p r remLen s).2.held = s.held := by
  induction fuel generalizing r remLen s with
  | zero => rfl
  | succ fuel ih =>
      by_cases hpos : 0 < remLen
      · cases hq : s.mempTab with
        | none => simp [pbufAllocTail, mempMalloc, hq, hpos]
        | some q => simp [pbufAllocTail, mempMalloc, hq, hpos, ih]
      · simp [pbufAllocTail, hpos]

@[simp] theorem pbufAlloc_held (length : UInt16) (s : Pbufs) :
    (pbufAlloc length s).2.held = s.held := by
  cases hp : s.mempTab with
  | none => simp [pbufAlloc, mempMalloc, hp]
  | some p =>
      simp only [pbufAlloc, mempMalloc, hp]
      have hheld := pbufAllocTail_held length.toNat p p
        (length.toNat - min length.toNat pbufPoolBufsize) (takePbuf p s)
      simp only [takePbuf] at hheld
      split
      next htail =>
        rw [htail] at hheld
        exact hheld
      next htail =>
        rw [htail] at hheld
        exact hheld

end Adhoc
