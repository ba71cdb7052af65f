import Adhoc.Dhcp.Options
import Adhoc.Lib.Walk
import Mathlib.Data.Nat.Basic

/-!
# `find_dhcp_option` and the option grammar

A list of options may have the octet `DHCP_PAD` anywhere, and `DHCP_END` ends it.
Both stand without a length.  `find_dhcp_option` reads a length behind every
code, so behind a `DHCP_PAD` or a `DHCP_END` it is out of step with the list, and
what it finds then may be no option of the list.

The two readings find the same option exactly when every option with the code
that only one of them comes to lies behind one that both come to
(`findDhcpOption_eq_iff`).
-/

namespace Adhoc

open ByteMem Walk

/-! ## The grammar -/

/-- The option at the index `i` lies in the area with its length and its octets. -/
def Complete (m : Mem) (attrs size i : Nat) : Prop :=
  i + 1 < size ∧ i + (m (attrs + (i + 1))).toNat + 2 ≤ size

instance (m : Mem) (attrs size i : Nat) : Decidable (Complete m attrs size i) :=
  inferInstanceAs (Decidable (_ ∧ _))

/-- The index behind the option at `i`. -/
def behind (m : Mem) (attrs i : Nat) : Nat := i + (m (attrs + (i + 1))).toNat + 2

/-- The options of the list from the index `i` on, in at most `fuel` rounds. -/
def readOptionsFrom (m : Mem) (attrs size : Nat) : Nat → Nat → List Nat
  | 0, _ => []
  | fuel + 1, i =>
      if size ≤ i then []
      else if m (attrs + i) = dhcpPad then readOptionsFrom m attrs size fuel (i + 1)
      else if m (attrs + i) = dhcpEnd then []
      else if Complete m attrs size i then
        (attrs + i) :: readOptionsFrom m attrs size fuel (behind m attrs i)
      else []

/-- The options of the list in the area, by the addresses of their codes: `DHCP_PAD` is one octet,
`DHCP_END` ends the list, and every other code has a length and so many octets behind it. -/
def readOptions (m : Mem) (attrs size : Nat) : List Nat := readOptionsFrom m attrs size size 0

/-- The first option of the list with the code. -/
def firstOption (m : Mem) (attrs size : Nat) (attr : UInt8) : Option Nat :=
  (readOptions m attrs size).find? fun a => m a = attr

/-! ## The two walks -/

/-- A complete option with the code stands at the index `i`. -/
def OptionAt (m : Mem) (attrs size : Nat) (attr : UInt8) (i : Nat) : Prop :=
  Complete m attrs size i ∧ m (attrs + i) = attr

instance (m : Mem) (attrs size : Nat) (attr : UInt8) (i : Nat) :
    Decidable (OptionAt m attrs size attr i) :=
  inferInstanceAs (Decidable (_ ∧ _))

/-- Where `find_dhcp_option` goes from the index `i`. -/
def scanNext (m : Mem) (attrs size i : Nat) : Option Nat :=
  if Complete m attrs size i then some (behind m attrs i) else none

/-- Where the list goes on from the index `i`. -/
def listNext (m : Mem) (attrs size i : Nat) : Option Nat :=
  if size ≤ i then none
  else if m (attrs + i) = dhcpPad then some (i + 1)
  else if m (attrs + i) = dhcpEnd then none
  else scanNext m attrs size i

variable {m : Mem} {attrs size i : Nat} {attr : UInt8}

theorem scanNext_forward : Forward (scanNext m attrs size) := by
  intro i j h
  obtain ⟨_, heq⟩ := Option.ite_none_right_eq_some.mp h
  obtain rfl := Option.some.inj heq
  show i < i + _ + 2
  omega

theorem listNext_forward : Forward (listNext m attrs size) := by
  intro i j h
  simp only [listNext] at h
  split at h
  next => cases h
  next =>
      split at h
      next =>
          cases h
          exact Nat.lt_succ_self i
      next =>
          split at h
          next => cases h
          next => exact scanNext_forward i j h

/-- Both go on alike behind a code that has a length. -/
theorem listNext_eq_scanNext (hpad : m (attrs + i) ≠ dhcpPad) (hend : m (attrs + i) ≠ dhcpEnd) :
    listNext m attrs size i = scanNext m attrs size i := by
  by_cases hsize : size ≤ i
  · have hnot : ¬ Complete m attrs size i := fun h => by
      have := h.1
      omega
    rw [listNext, if_pos hsize, scanNext, if_neg hnot]
  · rw [listNext, if_neg hsize, if_neg hpad, if_neg hend]

/-- `find_dhcp_option` finds the first option on its walk. -/
theorem isFirst_findDhcpOptionFrom (m : Mem) (attrs : Nat) (attr : UInt8) {fuel : Nat}
    (hfuel : size ≤ i + fuel) :
    ∃ r, IsFirst (scanNext m attrs size) (OptionAt m attrs size attr) i r ∧
      findDhcpOptionFrom m attrs size attr fuel i = r.map (attrs + ·) := by
  induction fuel generalizing i with
  | zero =>
      have hnot : ¬ Complete m attrs size i := fun h => by have := h.1; omega
      exact ⟨none, .stop (fun h => hnot h.1) (if_neg hnot), rfl⟩
  | succ fuel ih =>
      by_cases hcomplete : Complete m attrs size i
      · have hstep : findDhcpOptionFrom m attrs size attr (fuel + 1) i =
            if m (attrs + i) = attr then some (attrs + i)
            else findDhcpOptionFrom m attrs size attr fuel (behind m attrs i) := by
          rw [findDhcpOptionFrom, if_pos hcomplete.1]
          exact if_neg (Nat.not_lt.mpr hcomplete.2)
        by_cases hattr : m (attrs + i) = attr
        · exact ⟨some i, .here scanNext_forward ⟨hcomplete, hattr⟩, hstep.trans (if_pos hattr)⟩
        · obtain ⟨r, hr, hfind⟩ := @ih (behind m attrs i) (by simp only [behind]; omega)
          exact ⟨r, hr.step (fun h => hattr h.2) (if_pos hcomplete),
            (hstep.trans (if_neg hattr)).trans hfind⟩
      · refine ⟨none, .stop (fun h => hcomplete h.1) (if_neg hcomplete), ?_⟩
        rw [findDhcpOptionFrom]
        split
        next hi => exact if_pos (Nat.lt_of_not_le fun hle => hcomplete ⟨hi, hle⟩)
        next => rfl

/-- The first option of the list is the first on the walk of the list. -/
theorem isFirst_readOptionsFrom (m : Mem) (attrs : Nat) (hpad : attr ≠ dhcpPad)
    (hend : attr ≠ dhcpEnd) {fuel : Nat} (hfuel : size ≤ i + fuel) :
    ∃ r, IsFirst (listNext m attrs size) (OptionAt m attrs size attr) i r ∧
      (readOptionsFrom m attrs size fuel i).find? (fun a => m a = attr) = r.map (attrs + ·) := by
  have hbehind {i : Nat} (h : size ≤ i) : ¬ OptionAt m attrs size attr i := fun ho => by
    have := ho.1.1
    omega
  induction fuel generalizing i with
  | zero => exact ⟨none, .stop (hbehind hfuel) (if_pos hfuel), rfl⟩
  | succ fuel ih =>
      by_cases hsize : size ≤ i
      · refine ⟨none, .stop (hbehind hsize) (if_pos hsize), ?_⟩
        rw [readOptionsFrom, if_pos hsize]
        rfl
      · by_cases hp : m (attrs + i) = dhcpPad
        · have hnext : listNext m attrs size i = some (i + 1) := by
            rw [listNext, if_neg hsize, if_pos hp]
          obtain ⟨r, hr, hfind⟩ := @ih (i + 1) (by omega)
          refine ⟨r, hr.step (fun h => hpad (h.2.symm.trans hp)) hnext, ?_⟩
          rw [readOptionsFrom, if_neg hsize, if_pos hp]
          exact hfind
        · by_cases he : m (attrs + i) = dhcpEnd
          · have hnext : listNext m attrs size i = none := by
              rw [listNext, if_neg hsize, if_neg hp, if_pos he]
            refine ⟨none, .stop (fun h => hend (h.2.symm.trans he)) hnext, ?_⟩
            rw [readOptionsFrom, if_neg hsize, if_neg hp, if_pos he]
            rfl
          · have hnext : listNext m attrs size i = scanNext m attrs size i :=
              listNext_eq_scanNext hp he
            have hread : readOptionsFrom m attrs size (fuel + 1) i =
                if Complete m attrs size i then
                  (attrs + i) :: readOptionsFrom m attrs size fuel (behind m attrs i)
                else [] := by
              rw [readOptionsFrom, if_neg hsize, if_neg hp, if_neg he]
            rw [hread]
            by_cases hcomplete : Complete m attrs size i
            · rw [if_pos hcomplete]
              rw [scanNext, if_pos hcomplete] at hnext
              by_cases hattr : m (attrs + i) = attr
              · exact ⟨some i, .here listNext_forward ⟨hcomplete, hattr⟩,
                  List.find?_cons_of_pos (by simpa using hattr)⟩
              · obtain ⟨r, hr, hfind⟩ := @ih (behind m attrs i) (by simp only [behind]; omega)
                refine ⟨r, hr.step (fun h => hattr h.2) hnext, ?_⟩
                rw [List.find?_cons_of_neg (by simpa using hattr)]
                exact hfind
            · rw [if_neg hcomplete]
              rw [scanNext, if_neg hcomplete] at hnext
              exact ⟨none, .stop (fun h => hcomplete h.1) hnext, rfl⟩

/-! ## Agreement -/

/-- `find_dhcp_option` comes to the index `i`. -/
def OnScan (m : Mem) (attrs size i : Nat) : Prop := Reach (scanNext m attrs size) 0 i

/-- The reading of the list comes to the index `i`. -/
def OnList (m : Mem) (attrs size i : Nat) : Prop := Reach (listNext m attrs size) 0 i

theorem exists_isFirst (m : Mem) (attrs size : Nat) (hpad : attr ≠ dhcpPad)
    (hend : attr ≠ dhcpEnd) :
    ∃ r r', IsFirst (scanNext m attrs size) (OptionAt m attrs size attr) 0 r ∧
      IsFirst (listNext m attrs size) (OptionAt m attrs size attr) 0 r' ∧
        (findDhcpOption m attrs size attr = firstOption m attrs size attr ↔ r = r') := by
  obtain ⟨r, hr, hscan⟩ := isFirst_findDhcpOptionFrom m attrs attr (i := 0)
    (Nat.le_add_left size 0)
  obtain ⟨r', hr', hlist⟩ := isFirst_readOptionsFrom m attrs hpad hend (i := 0)
    (Nat.le_add_left size 0)
  have hinj : Function.Injective (Option.map (attrs + ·)) :=
    Option.map_injective fun _ _ => Nat.add_left_cancel
  refine ⟨r, r', hr, hr', ?_⟩
  rw [findDhcpOption, firstOption, readOptions, hscan, hlist, hinj.eq_iff]

/-- `find_dhcp_option` finds the first option of the list with the code exactly when every option
with the code that only one of the readings comes to lies behind one that both come to. -/
theorem findDhcpOption_eq_iff (m : Mem) (attrs size : Nat) {attr : UInt8} (hpad : attr ≠ dhcpPad)
    (hend : attr ≠ dhcpEnd) :
    findDhcpOption m attrs size attr = firstOption m attrs size attr ↔
      ∀ i, OptionAt m attrs size attr i → (OnScan m attrs size i ↔ OnList m attrs size i) ∨
        ∃ j < i, OptionAt m attrs size attr j ∧ OnScan m attrs size j ∧ OnList m attrs size j := by
  obtain ⟨r, r', hr, hr', hiff⟩ := exists_isFirst m attrs size hpad hend
  exact hiff.trans (hr.eq_iff hr')

/-- The message type and a requested address, without `DHCP_PAD`. -/
def plainOptions : Mem := Mem.zero.write 0 [53, 1, 3, 50, 4, 192, 168, 7, 2, 255]

theorem findDhcpOption_plain :
    findDhcpOption plainOptions 0 10 dhcpIpaddress = some 3 ∧
      ∀ i, OptionAt plainOptions 0 10 dhcpIpaddress i →
        (OnScan plainOptions 0 10 i ↔ OnList plainOptions 0 10 i) ∨
          ∃ j < i, OptionAt plainOptions 0 10 dhcpIpaddress j ∧ OnScan plainOptions 0 10 j ∧
            OnList plainOptions 0 10 j := by
  refine ⟨by decide +kernel, ?_⟩
  exact (findDhcpOption_eq_iff plainOptions 0 10 (by decide) (by decide)).mp (by decide +kernel)

/-- So it does where no `DHCP_PAD` and no `DHCP_END` stands before the first option with the code,
and where neither reading comes to such an option. -/
theorem findDhcpOption_eq_of_plain (m : Mem) (attrs size : Nat) (hpad : attr ≠ dhcpPad)
    (hend : attr ≠ dhcpEnd)
    (h : ∀ i, OptionAt m attrs size attr i → OnScan m attrs size i ∨ OnList m attrs size i →
      ∃ j ≤ i, OptionAt m attrs size attr j ∧ OnScan m attrs size j ∧
        ∀ k < j, OnScan m attrs size k →
          m (attrs + k) ≠ dhcpPad ∧ m (attrs + k) ≠ dhcpEnd) :
    findDhcpOption m attrs size attr = firstOption m attrs size attr := by
  obtain ⟨r, r', hr, hr', hiff⟩ := exists_isFirst m attrs size hpad hend
  refine hiff.mpr ((hr.eq_iff hr').mpr fun i hi => ?_)
  by_cases hreach : OnScan m attrs size i ∨ OnList m attrs size i
  · obtain ⟨j, hle, hj, hscan, hplain⟩ := h i hi hreach
    have hlist : OnList m attrs size j :=
      Reach.congr scanNext_forward
        (fun k hk hon => (listNext_eq_scanNext (hplain k hk hon).1 (hplain k hk hon).2).symm) hscan
    rcases hle.eq_or_lt with rfl | hlt
    · exact .inl (iff_of_true hscan hlist)
    · exact .inr ⟨j, hlt, hj, hscan, hlist⟩
  · obtain ⟨hscan, hlist⟩ := not_or.mp hreach
    exact .inl (iff_of_false hscan hlist)

/-- A requested address behind a `DHCP_PAD`, and one behind the `DHCP_END`. -/
def paddedOptions : Mem := Mem.zero.write 0 [0, 50, 4, 192, 168, 7, 2, 255]

def endedOptions : Mem := Mem.zero.write 0 [255, 0, 50, 4, 192, 168, 7, 2]

/-- The first is not found, the second is. -/
theorem findDhcpOption_out_of_step :
    (findDhcpOption paddedOptions 0 8 dhcpIpaddress = none ∧
      firstOption paddedOptions 0 8 dhcpIpaddress = some 1) ∧
    (findDhcpOption endedOptions 0 8 dhcpIpaddress = some 2 ∧
      firstOption endedOptions 0 8 dhcpIpaddress = none) := by
  decide +kernel

end Adhoc
