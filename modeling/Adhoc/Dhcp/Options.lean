import Adhoc.Lib.Mem

/-!
# The options area of a DHCP message

`find_dhcp_option` scans the area from the front, option by option, and
`fill_options` lays out the options of a reply.  A pointer into the area is an
address of the memory that holds the message.

The scan is a loop whose index grows by at least two, so `size` rounds of it are
enough, and more make no difference (`findDhcpOptionFrom_fuel`).  On an area that
begins with complete options it finds the first one with the code asked for
(`findDhcpOption_encode`).
-/

namespace Adhoc

open ByteMem

/-! ## Codes -/

/-- `DHCP_PAD`. -/
def dhcpPad : UInt8 := 0

/-- `DHCP_SUBNETMASK`. -/
def dhcpSubnetmask : UInt8 := 1

/-- `DHCP_ROUTER`. -/
def dhcpRouter : UInt8 := 3

/-- `DHCP_DNSSERVER`. -/
def dhcpDnsserver : UInt8 := 6

/-- `DHCP_DNSDOMAIN`. -/
def dhcpDnsdomain : UInt8 := 15

/-- `DHCP_IPADDRESS`. -/
def dhcpIpaddress : UInt8 := 50

/-- `DHCP_LEASETIME`. -/
def dhcpLeasetime : UInt8 := 51

/-- `DHCP_MESSAGETYPE`. -/
def dhcpMessagetype : UInt8 := 53

/-- `DHCP_SERVERID`. -/
def dhcpServerid : UInt8 := 54

/-- `DHCP_END`. -/
def dhcpEnd : UInt8 := 255

/-! ## The scan -/

/-- The loop of `find_dhcp_option` from the index `i`, for at most `fuel` rounds. -/
def findDhcpOptionFrom (m : Mem) (attrs size : Nat) (attr : UInt8) : Nat → Nat → Option Nat
  | 0, _ => none
  | fuel + 1, i =>
      if i + 1 < size then
        let next := i + (m (attrs + (i + 1))).toNat + 2
        if next > size then none
        else if m (attrs + i) = attr then some (attrs + i)
        else findDhcpOptionFrom m attrs size attr fuel next
      else none

/-- `find_dhcp_option`. -/
def findDhcpOption (m : Mem) (attrs size : Nat) (attr : UInt8) : Option Nat :=
  findDhcpOptionFrom m attrs size attr size 0

/-- The rounds beyond those the area has room for make no difference. -/
theorem findDhcpOptionFrom_fuel {m : Mem} {attrs size : Nat} {attr : UInt8} {fuel fuel' i : Nat}
    (h : size ≤ i + fuel) (h' : size ≤ i + fuel') :
    findDhcpOptionFrom m attrs size attr fuel i = findDhcpOptionFrom m attrs size attr fuel' i := by
  induction fuel generalizing fuel' i with
  | zero =>
      cases fuel' with
      | zero => rfl
      | succ fuel' => rw [findDhcpOptionFrom, findDhcpOptionFrom, if_neg (by omega)]
  | succ fuel ih =>
      cases fuel' with
      | zero => rw [findDhcpOptionFrom, findDhcpOptionFrom, if_neg (by omega)]
      | succ fuel' =>
          have hnext := @ih fuel' (i + (m (attrs + (i + 1))).toNat + 2)
          simp only [findDhcpOptionFrom]
          rw [hnext (by omega) (by omega)]

/-- What is found is an option that ends within the area. -/
theorem findDhcpOptionFrom_bounds {m : Mem} {attrs size : Nat} {attr : UInt8} {fuel i a : Nat}
    (h : findDhcpOptionFrom m attrs size attr fuel i = some a) :
    attrs ≤ a ∧ a + (m (a + 1)).toNat + 2 ≤ attrs + size ∧ m a = attr := by
  induction fuel generalizing i with
  | zero => cases h
  | succ fuel ih =>
      simp only [findDhcpOptionFrom] at h
      split at h
      next =>
        split at h
        next => cases h
        next hnext =>
          split at h
          next hattr =>
            obtain rfl := Option.some.inj h
            rw [Nat.add_assoc attrs i 1]
            exact ⟨Nat.le_add_right _ _, by omega, hattr⟩
          next => exact ih h
      next => cases h

/-- The scan finds nothing in front of where it begins. -/
theorem findDhcpOptionFrom_ge {m : Mem} {attrs size : Nat} {attr : UInt8} {fuel i a : Nat}
    (h : findDhcpOptionFrom m attrs size attr fuel i = some a) : attrs + i ≤ a := by
  induction fuel generalizing i with
  | zero => cases h
  | succ fuel ih =>
      simp only [findDhcpOptionFrom] at h
      split at h
      next =>
        split at h
        next => cases h
        next =>
          split at h
          next => exact Nat.le_of_eq (Option.some.inj h)
          next =>
            have := ih h
            omega
      next => cases h

/-- The scan depends on the area alone. -/
theorem findDhcpOptionFrom_congr {m m' : Mem} {attrs size : Nat} {attr : UInt8}
    (h : AgreeBelow (attrs + size) m m') (fuel i : Nat) :
    findDhcpOptionFrom m attrs size attr fuel i = findDhcpOptionFrom m' attrs size attr fuel i := by
  induction fuel generalizing i with
  | zero => rfl
  | succ fuel ih =>
      simp only [findDhcpOptionFrom]
      split
      next hi => rw [h (attrs + (i + 1)) (by omega), h (attrs + i) (by omega), ih]
      next => rfl

/-! ## Lists of options -/

/-- One option: its code, its length and its octets. -/
def encodeOption (o : UInt8 × List UInt8) : List UInt8 := o.1 :: .ofNat o.2.length :: o.2

/-- The options one after the other. -/
def encodeOptions (os : List (UInt8 × List UInt8)) : List UInt8 := os.flatMap encodeOption

@[simp] theorem length_encodeOption (o : UInt8 × List UInt8) :
    (encodeOption o).length = o.2.length + 2 := rfl

/-- The head of an option in memory. -/
theorem read_encodeOption {m : Mem} {off k : Nat} {o : UInt8 × List UInt8} {rest : List UInt8}
    (h : m.read off k = encodeOption o ++ rest) (hlen : o.2.length ≤ 255) :
    m off = o.1 ∧ (m (off + 1)).toNat = o.2.length := by
  have hk : k = (encodeOption o ++ rest).length := by rw [← h, Mem.length_read]
  have hget : ∀ i (hi : i < (encodeOption o ++ rest).length),
      m (off + i) = (encodeOption o ++ rest)[i] := by
    intro i hi
    have hi' : i < (m.read off k).length := by rw [h]; exact hi
    rw [← Mem.getElem_read m off k i hi']
    simp only [h]
  have htwo : 1 < (encodeOption o ++ rest).length := by
    rw [List.length_append, length_encodeOption]
    omega
  have h₀ := hget 0 (Nat.lt_trans Nat.zero_lt_one htwo)
  have h₁ := hget 1 htwo
  refine ⟨h₀, ?_⟩
  rw [h₁]
  show (UInt8.ofNat o.2.length).toNat = o.2.length
  rw [UInt8.toNat_ofNat']
  omega

/-- The scan goes on behind complete options with other codes. -/
theorem findDhcpOptionFrom_skip {m : Mem} {attrs size i fuel k : Nat} {attr : UInt8}
    {front : List (UInt8 × List UInt8)} {rest : List UInt8}
    (hread : m.read (attrs + i) k = encodeOptions front ++ rest)
    (hfront : ∀ o ∈ front, o.1 ≠ attr ∧ o.2.length ≤ 255)
    (hsize : i + (encodeOptions front).length ≤ size) (hfuel : size ≤ i + fuel) :
    findDhcpOptionFrom m attrs size attr fuel i =
      findDhcpOptionFrom m attrs size attr fuel (i + (encodeOptions front).length) := by
  induction front generalizing i fuel k with
  | nil => rfl
  | cons o front ih =>
      obtain ⟨hne, hlen⟩ := hfront o (.head _)
      rw [encodeOptions, List.flatMap_cons, List.append_assoc] at hread
      obtain ⟨hcode, hlength⟩ := read_encodeOption hread hlen
      simp only [encodeOptions, List.flatMap_cons, List.length_append,
        length_encodeOption] at hsize
      cases fuel with
      | zero => omega
      | succ fuel =>
          have hk : k = o.2.length + 2 + (k - (o.2.length + 2)) := by
            have := congrArg List.length hread
            simp only [Mem.length_read, List.length_append, length_encodeOption] at this
            omega
          rw [hk, Mem.read_add] at hread
          have hrest := (List.append_inj hread (by simp)).2
          rw [show attrs + i + (o.2.length + 2) = attrs + (i + o.2.length + 2) by omega] at hrest
          have hstep : findDhcpOptionFrom m attrs size attr (fuel + 1) i =
              findDhcpOptionFrom m attrs size attr fuel (i + o.2.length + 2) := by
            rw [findDhcpOptionFrom, if_pos (by omega), ← Nat.add_assoc, hlength]
            simp only [if_neg (show ¬ i + o.2.length + 2 > size by omega)]
            exact if_neg (by rw [hcode]; exact hne)
          have htail := ih hrest (fun o' h' => hfront o' (.tail _ h'))
            (by simp only [encodeOptions]; omega) (by omega : size ≤ _ + fuel)
          rw [hstep, htail]
          simp only [encodeOptions, List.flatMap_cons, List.length_append, length_encodeOption]
          rw [show i + o.2.length + 2 + (front.flatMap encodeOption).length =
            i + (o.2.length + 2 + (front.flatMap encodeOption).length) by omega]
          exact findDhcpOptionFrom_fuel (by omega) (by omega)

/-- Behind complete options with other codes the scan finds the option. -/
theorem findDhcpOptionFrom_encode {m : Mem} {attrs size i fuel k : Nat}
    {front : List (UInt8 × List UInt8)} {o : UInt8 × List UInt8} {rest : List UInt8}
    (hread : m.read (attrs + i) k = encodeOptions front ++ (encodeOption o ++ rest))
    (hfront : ∀ o' ∈ front, o'.1 ≠ o.1 ∧ o'.2.length ≤ 255) (hlen : o.2.length ≤ 255)
    (hsize : i + (encodeOptions front ++ encodeOption o).length ≤ size) (hfuel : size ≤ i + fuel) :
    findDhcpOptionFrom m attrs size o.1 fuel i =
      some (attrs + i + (encodeOptions front).length) := by
  rw [List.length_append, length_encodeOption] at hsize
  rw [findDhcpOptionFrom_skip hread hfront (by omega) hfuel]
  have hk : k = (encodeOptions front).length + (k - (encodeOptions front).length) := by
    have := congrArg List.length hread
    rw [Mem.length_read, List.length_append] at this
    omega
  rw [hk, Mem.read_add] at hread
  obtain ⟨hcode, hlength⟩ := read_encodeOption (List.append_inj hread (by simp)).2 hlen
  cases fuel with
  | zero => omega
  | succ fuel =>
      rw [findDhcpOptionFrom, if_pos (by omega), ← Nat.add_assoc, ← Nat.add_assoc, hlength]
      simp only [if_neg (show ¬ i + (encodeOptions front).length + o.2.length + 2 > size by omega)]
      exact if_pos (Nat.add_assoc attrs i _ ▸ hcode)

/-- `find_dhcp_option` on an area that begins with complete options. -/
theorem findDhcpOption_encode {m : Mem} {attrs size : Nat} {front : List (UInt8 × List UInt8)}
    {o : UInt8 × List UInt8}
    (hread : m.read attrs (encodeOptions front ++ encodeOption o).length =
      encodeOptions front ++ encodeOption o)
    (hfront : ∀ o' ∈ front, o'.1 ≠ o.1 ∧ o'.2.length ≤ 255) (hlen : o.2.length ≤ 255)
    (hsize : (encodeOptions front ++ encodeOption o).length ≤ size) :
    findDhcpOption m attrs size o.1 = some (attrs + (encodeOptions front).length) ∧
      m.read (attrs + (encodeOptions front).length) (encodeOption o).length = encodeOption o := by
  constructor
  · have hread' : m.read (attrs + 0) (encodeOptions front ++ encodeOption o).length =
        encodeOptions front ++ (encodeOption o ++ []) := by
      rw [List.append_nil]
      exact hread
    exact findDhcpOptionFrom_encode hread' hfront hlen (by omega) (by omega)
  · rw [List.length_append, Mem.read_add] at hread
    exact (List.append_inj hread (by simp)).2

/-- The octets of the first option that `find_dhcp_option` finds. -/
def optionValue (m : Mem) (attrs size : Nat) (attr : UInt8) : Option (List UInt8) :=
  (findDhcpOption m attrs size attr).map fun a => m.read (a + 2) (m (a + 1)).toNat

theorem optionValue_congr {m m' : Mem} {attrs size : Nat} (h : AgreeBelow (attrs + size) m m')
    (attr : UInt8) : optionValue m attrs size attr = optionValue m' attrs size attr := by
  have hfind : findDhcpOption m attrs size attr = findDhcpOption m' attrs size attr :=
    findDhcpOptionFrom_congr h _ _
  rw [optionValue, optionValue, hfind]
  cases hat : findDhcpOption m' attrs size attr with
  | none => rfl
  | some a =>
      obtain ⟨-, hend, -⟩ := findDhcpOptionFrom_bounds hat
      rw [Option.map_some, Option.map_some, h (a + 1) (by omega), h.read (by omega)]

/-- In an area of complete options with a `DHCP_END` and zeros behind them, the scan finds the
first option of the list with the code. -/
theorem optionValue_encode {m : Mem} {attrs size : Nat} {attr : UInt8}
    {os : List (UInt8 × List UInt8)}
    (hread : m.read attrs ((encodeOptions os).length + 1) = encodeOptions os ++ [dhcpEnd])
    (hos : ∀ o ∈ os, o.2.length ≤ 255) (hsize : (encodeOptions os).length + 1 ≤ size)
    (hzero : ∀ i, (encodeOptions os).length < i → i < size → m (attrs + i) = dhcpPad)
    (hpad : attr ≠ dhcpPad) (hend : attr ≠ dhcpEnd) :
    optionValue m attrs size attr = (os.find? fun o => o.1 = attr).map Prod.snd := by
  cases hfind : os.find? fun o => o.1 = attr with
  | none =>
      have hother : ∀ o ∈ os, o.1 ≠ attr ∧ o.2.length ≤ 255 := fun o ho =>
        ⟨by simpa using List.find?_eq_none.mp hfind o ho, hos o ho⟩
      have hskip := findDhcpOptionFrom_skip (i := 0) hread hother (by omega)
        (Nat.le_add_left size 0)
      cases hscan : findDhcpOption m attrs size attr with
      | none => rw [optionValue, hscan]; rfl
      | some a =>
          -- The scan stands on the `DHCP_END` or on a zero.
          rw [findDhcpOption, hskip, Nat.zero_add] at hscan
          have hge := findDhcpOptionFrom_ge hscan
          obtain ⟨-, hle, hattr⟩ := findDhcpOptionFrom_bounds hscan
          obtain ⟨i, rfl⟩ := Nat.exists_eq_add_of_le (Nat.le_of_add_right_le hge)
          rcases Nat.eq_or_lt_of_le (Nat.le_of_add_le_add_left hge) with rfl | hlt
          · rw [Mem.read_succ] at hread
            have hlast := (List.append_inj hread (by simp)).2
            exact absurd (hattr.symm.trans (List.cons.inj hlast).1) hend
          · exact absurd (hattr.symm.trans (hzero i hlt (by omega))) hpad
  | some o =>
      obtain ⟨hcode, front, back, rfl, hfront⟩ := List.find?_eq_some_iff_append.mp hfind
      obtain rfl : o.1 = attr := of_decide_eq_true hcode
      have hother : ∀ o' ∈ front, o'.1 ≠ o.1 ∧ o'.2.length ≤ 255 := fun o' ho =>
        ⟨by simpa using hfront o' ho, hos o' (by simp [ho])⟩
      have hlen : o.2.length ≤ 255 := hos o (by simp)
      have hsplit : encodeOptions (front ++ o :: back) =
          encodeOptions front ++ encodeOption o ++ encodeOptions back := by
        simp [encodeOptions]
      rw [hsplit, List.length_append, Nat.add_assoc, Mem.read_add, List.append_assoc] at hread
      have hhead := (List.append_inj hread (by simp)).1
      rw [hsplit, List.length_append] at hsize
      have hle : (encodeOptions front ++ encodeOption o).length ≤ size := by omega
      obtain ⟨hscan, hvalue⟩ := findDhcpOption_encode hhead hother hlen hle
      obtain ⟨-, hlength⟩ := read_encodeOption (hvalue.trans (List.append_nil _).symm) hlen
      rw [optionValue, hscan, Option.map_some, Option.map_some, hlength]
      have htwo : encodeOption o = [o.1, .ofNat o.2.length] ++ o.2 := rfl
      rw [htwo, List.length_append, Mem.read_add] at hvalue
      exact congrArg some (List.append_inj hvalue (Mem.length_read ..)).2

/-! ## The options of a reply -/

/-- `fill_options`: the octets it writes from `dest` on. -/
def fillOptions (msgType : UInt8) (domain : Option (List UInt8)) (dns leaseTime serverid router
    subnet : UInt32) : List UInt8 :=
  [dhcpMessagetype, 1, msgType] ++
  [dhcpServerid, 4] ++ wordBytes serverid ++
  [dhcpLeasetime, 4] ++ (wordBytes leaseTime).reverse ++
  [dhcpSubnetmask, 4] ++ wordBytes subnet ++
  (if router ≠ 0 then [dhcpRouter, 4] ++ wordBytes router else []) ++
  (match domain with
    | some name => [dhcpDnsdomain, .ofNat name.length] ++ name
    | none => []) ++
  (if dns ≠ 0 then [dhcpDnsserver, 4] ++ wordBytes dns else []) ++
  [dhcpEnd]

/-- How many octets `fill_options` writes: 22 always, and what the router, the
domain and the name server add. -/
def optionsLength (domain : Option (List UInt8)) (dns router : UInt32) : Nat :=
  22 + (if router ≠ 0 then 6 else 0) + (domain.elim 0 fun name => name.length + 2) +
    (if dns ≠ 0 then 6 else 0)

/-- The options of a reply, as a list. -/
def leaseOptions (msgType : UInt8) (domain : Option (List UInt8)) (dns leaseTime serverid router
    subnet : UInt32) : List (UInt8 × List UInt8) :=
  [(dhcpMessagetype, [msgType]), (dhcpServerid, wordBytes serverid),
    (dhcpLeasetime, (wordBytes leaseTime).reverse), (dhcpSubnetmask, wordBytes subnet)] ++
  (if router ≠ 0 then [(dhcpRouter, wordBytes router)] else []) ++
  (domain.elim [] fun name => [(dhcpDnsdomain, name)]) ++
  (if dns ≠ 0 then [(dhcpDnsserver, wordBytes dns)] else [])

/-- `fill_options` lays out the list and ends it. -/
theorem fillOptions_eq (msgType : UInt8) (domain : Option (List UInt8)) (dns leaseTime serverid
    router subnet : UInt32) :
    fillOptions msgType domain dns leaseTime serverid router subnet =
      encodeOptions (leaseOptions msgType domain dns leaseTime serverid router subnet) ++
        [dhcpEnd] := by
  have hrouter : encodeOptions (if router ≠ 0 then [(dhcpRouter, wordBytes router)] else []) =
      if router ≠ 0 then [dhcpRouter, 4] ++ wordBytes router else [] := by split <;> rfl
  have hdns : encodeOptions (if dns ≠ 0 then [(dhcpDnsserver, wordBytes dns)] else []) =
      if dns ≠ 0 then [dhcpDnsserver, 4] ++ wordBytes dns else [] := by split <;> rfl
  simp only [encodeOptions] at hrouter hdns
  simp only [fillOptions, leaseOptions, encodeOptions, List.flatMap_append, hrouter, hdns]
  cases domain with
  | none => rfl
  | some name => simp [encodeOption]

theorem length_fillOptions (msgType : UInt8) (domain : Option (List UInt8)) (dns leaseTime serverid
    router subnet : UInt32) :
    (fillOptions msgType domain dns leaseTime serverid router subnet).length =
      optionsLength domain dns router := by
  have hrouter : (if router ≠ 0 then [dhcpRouter, 4] ++ wordBytes router else []).length =
      if router ≠ 0 then 6 else 0 := by split <;> rfl
  have hdns : (if dns ≠ 0 then [dhcpDnsserver, 4] ++ wordBytes dns else []).length =
      if dns ≠ 0 then 6 else 0 := by split <;> rfl
  simp only [fillOptions, optionsLength, List.length_append, length_wordBytes,
    List.length_reverse, hrouter, hdns, List.length_cons, List.length_nil]
  cases domain with
  | none =>
      simp only [List.length_nil, Option.elim]
      omega
  | some name =>
      simp only [List.length_append, List.length_cons, List.length_nil, Option.elim]
      omega

end Adhoc
