import Adhoc.Dhcp.Server

/-!
# The accesses of the scan

`find_dhcp_option` adds lengths that the client sends to its index, and compares two sums with
`size`: `i + 1`, where the length stands, and `next`, where the option ends.
`checkedFindDhcpOption` is the function with its sums checked to be of type `int` and its
accesses to be in the area, and `checkedRequestedAddr` is step 1 of the `DHCP_REQUEST` case so.
Neither comes to a check that fails.
-/

namespace Adhoc

open ByteMem

/-- An octet of the `size` octets at `attrs`.  What lies outside cannot be read. -/
def loadAttr (m : Mem) (attrs size a : Nat) : Option UInt8 :=
  if attrs ≤ a ∧ a < attrs + size then some (m a) else none

/-- A sum of type `int`, the largest of which is `intMax`. -/
def intSum (intMax n : Nat) : Option Nat := if n ≤ intMax then some n else none

/-- The loop of `find_dhcp_option` from the index `i`, with its sums and accesses checked.  It
yields nothing when `rounds` do not suffice. -/
def checkedFindDhcpOptionFrom (intMax : Nat) (m : Mem) (attrs size : Nat) (attr : UInt8) :
    Nat → Nat → Option (Option Nat)
  | 0, _ => none
  | rounds + 1, i =>
      (intSum intMax (i + 1)).bind fun i₁ =>
        if i₁ < size then
          (loadAttr m attrs size (attrs + i₁)).bind fun length =>
            (intSum intMax (i + length.toNat + 2)).bind fun next =>
              if next > size then some none
              else
                (loadAttr m attrs size (attrs + i)).bind fun code =>
                  if code = attr then some (some (attrs + i))
                  else checkedFindDhcpOptionFrom intMax m attrs size attr rounds next
        else some none

/-- `find_dhcp_option`, with its sums and accesses checked. -/
def checkedFindDhcpOption (intMax : Nat) (m : Mem) (attrs size : Nat) (attr : UInt8) :
    Option (Option Nat) :=
  checkedFindDhcpOptionFrom intMax m attrs size attr (size / 2 + 1) 0

/-- Step 1 of the `DHCP_REQUEST` case and the octets of the address, with the accesses to
`dp_options` checked. -/
def checkedRequestedAddr (data : Mem) : Option (Option (List UInt8)) :=
  (checkedFindDhcpOption 2147483647 data dpOptions dpOptionsSize dhcpIpaddress).bind fun
    | none => some none
    | some ptr =>
        (loadAttr data dpOptions dpOptionsSize (ptr + 1)).bind fun length =>
          if length ≠ 4 then some none
          else
            ((List.range' (ptr + 2) 4).mapM (loadAttr data dpOptions dpOptionsSize)).map some

section Area

variable {m : Mem} {attrs size a n i rounds intMax : Nat} {attr : UInt8}

theorem loadAttr_of_lt (h : attrs ≤ a) (h' : a < attrs + size) :
    loadAttr m attrs size a = some (m a) := if_pos ⟨h, h'⟩

theorem intSum_of_le (h : n ≤ intMax) : intSum intMax n = some n := if_pos h

/-- Octets that are in the area can be read. -/
theorem mapM_loadAttr (h : attrs ≤ a) (h' : a + n ≤ attrs + size) :
    (List.range' a n).mapM (loadAttr m attrs size) = some (m.read a n) := by
  induction n generalizing a with
  | zero => rfl
  | succ n ih =>
      rw [List.range'_succ, List.mapM_cons, loadAttr_of_lt h (by omega), ih (by omega) (by omega),
        Mem.read_cons]
      rfl

/-- The index grows by two in every round, and no check fails. -/
theorem checkedFindDhcpOptionFrom_eq (hint : size + 255 ≤ intMax) (hi : i ≤ size)
    (hrounds : size < i + 2 * rounds) {fuel : Nat} (hfuel : size ≤ i + fuel) :
    checkedFindDhcpOptionFrom intMax m attrs size attr rounds i =
      some (findDhcpOptionFrom m attrs size attr fuel i) := by
  induction rounds generalizing i fuel with
  | zero => omega
  | succ rounds ih =>
      have hsum : intSum intMax (i + 1) = some (i + 1) := intSum_of_le (by omega)
      rw [checkedFindDhcpOptionFrom, hsum, Option.bind_some]
      by_cases hlt : i + 1 < size
      · obtain ⟨fuel, rfl⟩ : ∃ k, fuel = k + 1 := Nat.exists_eq_succ_of_ne_zero (by omega)
        have hload : loadAttr m attrs size (attrs + (i + 1)) = some (m (attrs + (i + 1))) :=
          loadAttr_of_lt (Nat.le_add_right ..) (by omega)
        have hload' : loadAttr m attrs size (attrs + i) = some (m (attrs + i)) :=
          loadAttr_of_lt (Nat.le_add_right ..) (by omega)
        have hoctet := (m (attrs + (i + 1))).toNat_lt
        have hnext : intSum intMax (i + (m (attrs + (i + 1))).toNat + 2) =
          some (i + (m (attrs + (i + 1))).toNat + 2) := intSum_of_le (by omega)
        simp only [findDhcpOptionFrom, if_pos hlt, hload, hload', hnext, Option.bind_some]
        split
        next => rfl
        next hend =>
          split
          next => rfl
          next => exact ih (by omega) (by omega) (by omega)
      · rw [if_neg hlt]
        cases fuel with
        | zero => rfl
        | succ fuel => rw [findDhcpOptionFrom, if_neg hlt]

theorem checkedFindDhcpOption_eq (hint : size + 255 ≤ intMax) :
    checkedFindDhcpOption intMax m attrs size attr = some (findDhcpOption m attrs size attr) :=
  checkedFindDhcpOptionFrom_eq hint (Nat.zero_le _) (by omega) (Nat.le_add_left ..)

/-- The octets that step 1 reads are in `dp_options`. -/
theorem checkedRequestedAddr_eq (data : Mem) :
    checkedRequestedAddr data = some ((requestedAddr data).map fun ptr => data.read ptr 4) := by
  have hfind : checkedFindDhcpOption 2147483647 data dpOptions dpOptionsSize dhcpIpaddress =
      some (findDhcpOption data dpOptions dpOptionsSize dhcpIpaddress) :=
    checkedFindDhcpOption_eq (by decide)
  rw [checkedRequestedAddr, requestedAddr, hfind, Option.bind_some]
  cases hat : findDhcpOption data dpOptions dpOptionsSize dhcpIpaddress with
  | none => rfl
  | some ptr =>
      obtain ⟨hge, hend, -⟩ := findDhcpOptionFrom_bounds hat
      simp only [loadAttr_of_lt (m := data) (show dpOptions ≤ ptr + 1 by omega)
        (show ptr + 1 < dpOptions + dpOptionsSize by omega), Option.bind_some]
      split
      next => rfl
      next hfour =>
        have hlen : (data (ptr + 1)).toNat = 4 := by rw [not_not.mp hfour]; rfl
        rw [mapM_loadAttr (by omega) (by omega)]
        rfl

end Area

/-- At `a` is an option that ends in the area, and its octets can be read. -/
structure OptionInside (m : Mem) (attrs size a : Nat) : Prop where
  ends : ∃ i, a = attrs + i ∧ i + 2 + (m (attrs + (i + 1))).toNat ≤ size
  octets : (List.range' a (2 + (m (a + 1)).toNat)).mapM (loadAttr m attrs size) =
    some (m.read a (2 + (m (a + 1)).toNat))

/-- The scan of an area ends and reads octets of the area alone, and what it finds is an option
that ends in the area.  So does the address that the `DHCP_REQUEST` case reads. -/
theorem findDhcpOption_inside (m : Mem) (attrs size : Nat) (attr : UInt8) :
    checkedFindDhcpOption (size + 255) m attrs size attr =
        some (findDhcpOption m attrs size attr) ∧
      (∀ a, findDhcpOption m attrs size attr = some a → OptionInside m attrs size a) ∧
      ∀ data, checkedRequestedAddr data =
        some ((requestedAddr data).map fun ptr => data.read ptr 4) := by
  refine ⟨checkedFindDhcpOption_eq (Nat.le_refl _), fun a ha => ?_, checkedRequestedAddr_eq⟩
  obtain ⟨hge, hend, -⟩ := findDhcpOptionFrom_bounds ha
  obtain ⟨i, rfl⟩ := Nat.exists_eq_add_of_le hge
  refine ⟨⟨i, rfl, ?_⟩, mapM_loadAttr hge ?_⟩
  · rw [Nat.add_assoc attrs i 1] at hend
    omega
  · omega

/-- An area that the option with the address fills. -/
def addrOption : Mem := Mem.zero.write 8 [dhcpIpaddress, 4, 192, 168, 7, 3]

theorem findDhcpOption_inside_addr :
    findDhcpOption addrOption 8 6 dhcpIpaddress = some 8 ∧ OptionInside addrOption 8 6 8 := by
  have hfind : findDhcpOption addrOption 8 6 dhcpIpaddress = some 8 := by decide +kernel
  exact ⟨hfind, (findDhcpOption_inside addrOption 8 6 dhcpIpaddress).2.1 8 hfind⟩

end Adhoc
