import Adhoc.Dns.Server

/-!
# What `parse_next_query` accepts

A question is a name, its labels of one to 255 octets each behind their length,
an empty label, and two words.  `parse_next_query` accepts it when the labels,
joined by dots, leave room for the zero that ends them (`parseName_eq_ok_iff`).

`checkedParseNextQuery` is the function on the memory, where an octet outside the
message cannot be read and one outside `query->name` cannot be stored.  It never
comes to such an access and yields what `parseNextQuery` does
(`checkedParseNextQuery_eq`).
-/

namespace Adhoc.Dns

open ByteMem DnsWire

/-! ## The grammar -/

/-- The labels of a question: each of them has octets, and not more than a length octet can
say. -/
def Labels (labels : Name) : Prop := ∀ l ∈ labels, 0 < l.length ∧ l.length ≤ 255

/-- The labels joined by dots. -/
def dotted (labels : Name) : List UInt8 := [0x2E].intercalate labels

/-- The labels joined to a name of so many labels. -/
def joinLabels (name : List UInt8) (lables : Nat) : Name → List UInt8
  | [] => name
  | l :: labels =>
      joinLabels ((if 0 < lables then name ++ [0x2E] else name) ++ l) (lables + 1) labels

theorem joinLabels_succ (name : List UInt8) (lables : Nat) (labels : Name) :
    joinLabels name (lables + 1) labels = name ++ labels.flatMap fun l => 0x2E :: l := by
  induction labels generalizing name lables with
  | nil => simp [joinLabels]
  | cons l labels ih =>
      rw [joinLabels, if_pos (Nat.succ_pos lables), ih]
      simp

theorem joinLabels_zero (labels : Name) : joinLabels [] 0 labels = dotted labels := by
  cases labels with
  | nil => rfl
  | cons l labels =>
      rw [joinLabels, if_neg (Nat.lt_irrefl 0), joinLabels_succ]
      induction labels generalizing l with
      | nil => simp [dotted]
      | cons l' labels ih =>
          have htail := ih l'
          simp only [List.nil_append, dotted] at htail ⊢
          rw [List.flatMap_cons, List.cons_append, htail]
          simp

theorem length_le_joinLabels (name : List UInt8) (lables : Nat) (labels : Name) :
    name.length ≤ (joinLabels name lables labels).length := by
  cases labels with
  | nil => exact Nat.le_refl _
  | cons l labels =>
      rw [joinLabels, joinLabels_succ]
      split <;> simp only [List.length_append] <;> omega

/-- A message that begins with a name and not with its end begins with its first label. -/
theorem first_label {b : UInt8} {data rest : List UInt8} {labels : Name} (h : Labels labels)
    (hne : b ≠ 0) (heq : b :: data = encodeLabels labels ++ 0 :: rest) :
    ∃ l labels', labels = l :: labels' ∧ l.length = b.toNat ∧
      data = l ++ (encodeLabels labels' ++ 0 :: rest) := by
  cases labels with
  | nil => exact absurd (List.cons.inj heq).1 hne
  | cons l labels =>
      rw [encodeLabels_cons, List.cons_append, List.append_assoc] at heq
      obtain ⟨rfl, rfl⟩ := List.cons.inj heq
      refine ⟨l, labels, rfl, ?_, rfl⟩
      exact (toNat_ofNat_length (Nat.lt_succ_of_le (h l (.head _)).2)).symm

/-- The loop accepts the names of which the labels joined leave room. -/
theorem parseName_eq_ok_iff {data name name' rest : List UInt8} {lables : Nat}
    (hlen : name.length < dnsMaxHostNameLen) :
    parseName data name lables = .ok (name', rest) ↔
      ∃ labels, Labels labels ∧ data = encodeLabels labels ++ 0 :: rest ∧
        name' = joinLabels name lables labels ∧ name'.length < dnsMaxHostNameLen := by
  fun_induction parseName data name lables with
  | case1 =>
      refine iff_of_false (by simp) ?_
      rintro ⟨labels, -, heq, -⟩
      simp at heq
  | case2 name lables data =>
      constructor
      · intro h
        cases h
        exact ⟨[], by rintro l ⟨⟩, rfl, rfl, hlen⟩
      · rintro ⟨labels, hlabels, heq, rfl, -⟩
        cases labels with
        | nil =>
            cases heq
            rfl
        | cons l labels =>
            rw [encodeLabels_cons] at heq
            have hl := toNat_ofNat_length (Nat.lt_succ_of_le (hlabels l (.head _)).2)
            rw [← (List.cons.inj heq).1] at hl
            exact absurd hl (Nat.ne_of_lt (hlabels l (.head _)).1)
  | case3 name lables b data _ hfull => exact absurd hfull.2 (Nat.ne_of_lt hlen)
  | case4 name lables b data hne _ hshort =>
      refine iff_of_false (by simp) ?_
      rintro ⟨labels, hlabels, heq, -⟩
      obtain ⟨l, labels, rfl, hl, rfl⟩ := first_label hlabels hne heq
      rw [List.length_append, hl] at hshort
      omega
  | case5 name lables b data hne _ name₁ _ hlong =>
      refine iff_of_false (by simp) ?_
      rintro ⟨labels, hlabels, heq, rfl, hroom⟩
      obtain ⟨l, labels, rfl, hl, rfl⟩ := first_label hlabels hne heq
      have hle := length_le_joinLabels (name₁ ++ l) (lables + 1) labels
      rw [List.length_append, hl] at hle
      exact absurd (Nat.lt_of_le_of_lt (Nat.le_trans hlong hle) hroom) (Nat.lt_irrefl _)
  | case6 name lables b data hne _ name₁ hfit hroom ih =>
      have htake : (data.take b.toNat).length = b.toNat :=
        List.length_take_of_le (Nat.le_of_not_lt hfit)
      rw [ih (by rw [List.length_append, htake]; exact Nat.lt_of_not_le hroom)]
      constructor
      · rintro ⟨labels, hlabels, heq, rfl, hlt⟩
        have hpos : 0 < b.toNat := Nat.pos_of_ne_zero fun hzero => hne (UInt8.toNat_inj.mp hzero)
        have hmax := b.toNat_lt
        refine ⟨data.take b.toNat :: labels, ?_, ?_, rfl, hlt⟩
        · intro l hl
          rcases List.mem_cons.mp hl with rfl | hl
          · rw [htake]
            omega
          · exact hlabels l hl
        · rw [encodeLabels_cons, htake, UInt8.ofNat_toNat, List.cons_append, List.append_assoc,
            ← heq, List.take_append_drop]
      · rintro ⟨labels, hlabels, heq, rfl, hlt⟩
        obtain ⟨l, labels, rfl, hl, rfl⟩ := first_label hlabels hne heq
        refine ⟨labels, fun l' hl' => hlabels l' (.tail _ hl'), ?_, ?_, hlt⟩
        · rw [List.drop_left' hl]
        · rw [List.take_left' hl]
          rfl

/-- A name is refused as too short or too long. -/
theorem parseName_error {data name : List UInt8} {lables : Nat} {e : Int}
    (h : parseName data name lables = .error e) : e = -1 ∨ e = -2 := by
  fun_induction parseName data name lables with
  | case1 => cases h; exact .inl rfl
  | case2 => cases h
  | case3 => cases h; exact .inr rfl
  | case4 => cases h; exact .inl rfl
  | case5 => cases h; exact .inr rfl
  | case6 _ _ _ _ _ _ _ _ _ ih => exact ih h

/-- A name with less than two words behind it. -/
theorem parseNextQuery_short {bs name rest : List UInt8} (h : parseName bs [] 0 = .ok (name, rest))
    (hrest : rest.length < 4) : parseNextQuery bs = .error (-1) := by
  rw [parseNextQuery, h]
  split
  next heq => cases heq
  next heq =>
      cases heq
      simp only [List.length_cons] at hrest
      omega
  next => rfl

/-- The message begins with the question of these labels and words, and the name has room. -/
structure IsQuestion (bs : List UInt8) (labels : Name) (t t' c c' : UInt8) : Prop where
  valid : Labels labels
  begins : question labels t t' c c' <+: bs
  room : (dotted labels).length ≤ dnsMaxHostNameLen - 1

/-- `parse_next_query` accepts the questions whose names have room, and no others. -/
theorem parseNextQuery_eq_ok_iff (bs : List UInt8) (query : DnsQuery) (len : Nat) :
    parseNextQuery bs = .ok (query, len) ↔
      ∃ labels t t' c c', IsQuestion bs labels t t' c c' ∧
        query = ⟨dotted labels, half t t', half c c'⟩ ∧
        len = (question labels t t' c c').length := by
  constructor
  · intro h
    unfold parseNextQuery at h
    split at h
    next => cases h
    next name t t' c c' rest hparse =>
        cases h
        obtain ⟨labels, hlabels, rfl, rfl, hlt⟩ := (parseName_eq_ok_iff (by decide)).mp hparse
        rw [joinLabels_zero] at hlt ⊢
        refine ⟨labels, t, t', c, c', ⟨hlabels, ⟨rest, by simp [question]⟩, ?_⟩, rfl, ?_⟩
        · exact Nat.le_sub_one_of_lt hlt
        · simp only [question, List.length_append, List.length_cons, List.length_nil]
          omega
    next => cases h
  · rintro ⟨labels, t, t', c, c', ⟨hlabels, ⟨rest, rfl⟩, hroom⟩, rfl, rfl⟩
    have hparse : parseName (question labels t t' c c' ++ rest) [] 0 =
        .ok (dotted labels, t :: t' :: c :: c' :: rest) := by
      refine (parseName_eq_ok_iff (by decide)).mpr ⟨labels, hlabels, ?_, ?_, ?_⟩
      · simp [question]
      · exact (joinLabels_zero labels).symm
      · exact Nat.lt_of_le_sub_one (by decide) hroom
    rw [parseNextQuery, hparse]
    simp only [List.length_append, Nat.add_sub_cancel]

/-- Everything else is refused with one of the two errors. -/
theorem parseNextQuery_error {bs : List UInt8} {e : Int} (h : parseNextQuery bs = .error e) :
    e = -1 ∨ e = -2 := by
  unfold parseNextQuery at h
  split at h
  next hparse =>
      cases h
      exact parseName_error hparse
  next => cases h
  next =>
      cases h
      exact .inl rfl

/-! ## The accesses -/

/-- The octets `[ptr, ptr + n)` of a message of `size` octets.  What lies outside cannot be
read. -/
def load (data : Mem) (size : Int) (ptr n : Nat) : Option (List UInt8) :=
  if (ptr + n : Nat) ≤ size then some (data.read ptr n) else none

/-- Octets are stored in `query->name`.  Outside it nothing can be stored. -/
def store (buf : Mem) (len : Nat) (bs : List UInt8) : Option Mem :=
  if len + bs.length ≤ dnsMaxHostNameLen then some (buf.write len bs) else none

/-- `dns_query_t`. -/
structure QueryMem where
  name : Mem
  type : UInt16
  Class : UInt16

/-- Where the loop of `parse_next_query` stops: the pointer, what is left of the size, the name and
its length. -/
structure NameEnd where
  ptr : Nat
  left : Int
  name : Mem
  len : Nat

/-- The loop of `parse_next_query`, with its accesses to the message of `size` octets and to the
name.  An error comes with the name as far as it was stored. -/
def checkedParseName (data : Mem) (size : Int) (ptr : Nat) (left : Int) (name : Mem)
    (len lables : Nat) : Option (Except (Int × Mem) NameEnd) :=
  if hleft : left ≤ 0 then some (.error (-1, name))
  else
    (load data size ptr 1).bind fun _ =>
      let lableLen := (data ptr).toNat
      if lableLen = 0 then some (.ok ⟨ptr + 1, left - 1, name, len⟩)
      else if 0 < lables ∧ len = dnsMaxHostNameLen then some (.error (-2, name))
      else
        (if 0 < lables then (store name len [0x2E]).map (·, len + 1) else some (name, len)).bind
          fun (name, len) =>
            if left - 1 < lableLen then some (.error (-1, name))
            else if dnsMaxHostNameLen ≤ len + lableLen then some (.error (-2, name))
            else
              (load data size (ptr + 1) lableLen).bind fun octets =>
                (store name len octets).bind fun name =>
                  checkedParseName data size (ptr + 1 + lableLen) (left - 1 - lableLen) name
                    (len + lableLen) (lables + 1)
termination_by left.toNat
decreasing_by omega

/-- `parse_next_query` with its accesses: what it returns, and the query. -/
def checkedParseNextQuery (data : Mem) (size : Int) (query : QueryMem) :
    Option (Int × QueryMem) :=
  (checkedParseName data size 0 size query.name 0 0).bind fun
    | .error (e, name) => some (e, { query with name })
    | .ok q =>
        if q.left < 4 then some (-1, { query with name := q.name })
        else
          (store q.name q.len [0]).bind fun name =>
            (load data size q.ptr 2).bind fun _ =>
              (load data size (q.ptr + 2) 2).map fun _ =>
                ((q.ptr + 4 : Nat), {
                  name,
                  type := half (data q.ptr) (data (q.ptr + 1)),
                  Class := half (data (q.ptr + 2)) (data (q.ptr + 3)) })

/-- The two loops came to the same end. -/
inductive SameEnd (data : Mem) (size : Int) :
    Except (Int × Mem) NameEnd → Except Int (List UInt8 × List UInt8) → Prop where
  | error (e : Int) (name : Mem) : SameEnd data size (.error (e, name)) (.error e)
  | ok (q : NameEnd) : q.ptr + q.left = size → 0 ≤ q.left → q.len < dnsMaxHostNameLen →
      SameEnd data size (.ok q) (.ok (q.name.read 0 q.len, data.read q.ptr q.left.toNat))

section Accesses

variable {data name : Mem} {size left : Int} {ptr len lables : Nat}

theorem load_eq_some {n : Nat} (h : (ptr + n : Nat) ≤ size) :
    load data size ptr n = some (data.read ptr n) := if_pos h

theorem store_eq_some {bs : List UInt8} (h : len + bs.length ≤ dnsMaxHostNameLen) :
    store name len bs = some (name.write len bs) := if_pos h

/-- What is stored behind a name makes it longer. -/
theorem read_write_name (name : Mem) (len : Nat) (bs : List UInt8) :
    (name.write len bs).read 0 (len + bs.length) = name.read 0 len ++ bs := by
  have hself := name.read_write_self len bs
  rw [Mem.read_add, Mem.read_write_disjoint _ (.inl (by omega)), Nat.zero_add, hself]

/-- The loop never comes to an access outside the message or the name, and ends as `parseName`
does. -/
theorem checkedParseName_eq (hleft : ptr + left = size) (hlen : len < dnsMaxHostNameLen) :
    ∃ r, checkedParseName data size ptr left name len lables = some r ∧
      SameEnd data size r (parseName (data.read ptr left.toNat) (name.read 0 len) lables) := by
  induction hn : left.toNat using Nat.strongRecOn
    generalizing ptr left name len lables with
  | ind n ih =>
  by_cases hend : left ≤ 0
  · obtain rfl : n = 0 := by omega
    refine ⟨_, by rw [checkedParseName, dif_pos hend], ?_⟩
    rw [Mem.read, List.range'_zero, List.map_nil, parseName]
    exact .error (-1) name
  · obtain ⟨k, rfl⟩ : ∃ k, n = k + 1 := ⟨n - 1, by omega⟩
    have hload : load data size ptr 1 = some (data.read ptr 1) := load_eq_some (by omega)
    -- A label behind the name as it stands, with the dot if there is one.
    have hlabel (name : Mem) (len : Nat) (hlen : len ≤ dnsMaxHostNameLen) :
        ∃ r, (if left - 1 < (data ptr).toNat then some (.error (-1, name))
          else if dnsMaxHostNameLen ≤ len + (data ptr).toNat then some (.error (-2, name))
          else
            (load data size (ptr + 1) (data ptr).toNat).bind fun octets =>
              (store name len octets).bind fun name =>
                checkedParseName data size (ptr + 1 + (data ptr).toNat)
                  (left - 1 - (data ptr).toNat) name (len + (data ptr).toNat) (lables + 1)) =
            some r ∧
          SameEnd data size r
            (if k < (data ptr).toNat then .error (-1)
            else if dnsMaxHostNameLen ≤ len + (data ptr).toNat then .error (-2)
            else
              parseName ((data.read (ptr + 1) k).drop (data ptr).toNat)
                (name.read 0 len ++ (data.read (ptr + 1) k).take (data ptr).toNat)
                (lables + 1)) := by
      generalize (data ptr).toNat = n at *
      by_cases hshort : k < n
      · rw [if_pos hshort, if_pos (by omega)]
        exact ⟨_, rfl, .error (-1) name⟩
      · rw [if_neg hshort, if_neg (by omega : ¬ left - 1 < n)]
        by_cases hlong : dnsMaxHostNameLen ≤ len + n
        · rw [if_pos hlong, if_pos hlong]
          exact ⟨_, rfl, .error (-2) name⟩
        · have hoctets : load data size (ptr + 1) n = some (data.read (ptr + 1) n) :=
            load_eq_some (by omega)
          have hstore : store name len (data.read (ptr + 1) n) =
              some (name.write len (data.read (ptr + 1) n)) :=
            store_eq_some (by rw [Mem.length_read]; exact Nat.le_of_not_le hlong)
          have hname := read_write_name name len (data.read (ptr + 1) n)
          rw [Mem.length_read] at hname
          have hk : k = n + (k - n) := by omega
          rw [if_neg hlong, if_neg hlong, hoctets, Option.bind_some, hstore, Option.bind_some, hk,
            Mem.read_add, List.drop_left' (Mem.length_read ..),
            List.take_left' (Mem.length_read ..),
            ← hname]
          exact ih (k - n) (by omega) (by omega) (by omega) (by omega)
    rw [checkedParseName, dif_neg hend, hload, Option.bind_some, Mem.read_cons, parseName]
    simp only [Mem.length_read]
    by_cases hzero : data ptr = 0
    · rw [if_pos hzero, if_pos (by rw [hzero]; rfl)]
      refine ⟨_, rfl, ?_⟩
      have hk : k = (left - 1).toNat := by omega
      rw [hk]
      exact .ok ⟨ptr + 1, left - 1, name, len⟩ (by simp only; omega) (by simp only; omega) hlen
    · have hne : (data ptr).toNat ≠ 0 := fun h => hzero (UInt8.toNat_inj.mp h)
      have hroom : ¬ (0 < lables ∧ len = dnsMaxHostNameLen) := fun h => Nat.ne_of_lt hlen h.2
      rw [if_neg hzero, if_neg hne, if_neg hroom, if_neg hroom]
      by_cases hfirst : 0 < lables
      · have hdot : store name len [0x2E] = some (name.write len [0x2E]) :=
          store_eq_some (Nat.succ_le_of_lt hlen)
        have hname : (name.write len [0x2E]).read 0 (len + 1) = name.read 0 len ++ [0x2E] :=
          read_write_name name len [0x2E]
        rw [if_pos hfirst, if_pos hfirst, hdot, Option.map_some, Option.bind_some, ← hname,
          Mem.length_read]
        exact hlabel _ _ (Nat.succ_le_of_lt hlen)
      · rw [if_neg hfirst, if_neg hfirst, Option.bind_some, Mem.length_read]
        exact hlabel _ _ (Nat.le_of_lt hlen)

/-- The function on the memory yields what `parseNextQuery` does, and the name with its zero. -/
theorem checkedParseNextQuery_eq (data : Mem) (size : Int) (query : QueryMem) :
    ∃ n query', checkedParseNextQuery data size query = some (n, query') ∧
      match parseNextQuery (data.read 0 size.toNat) with
      | .error e => n = e
      | .ok (q, len) =>
          n = len ∧ query'.name.read 0 (q.name.length + 1) = q.name ++ [0] ∧
            query'.type = q.type ∧ query'.Class = q.Class := by
  have hname : ∃ r, checkedParseName data size 0 size query.name 0 0 = some r ∧
      SameEnd data size r (parseName (data.read 0 size.toNat) (query.name.read 0 0) 0) :=
    checkedParseName_eq (by omega) (by decide)
  obtain ⟨r, hr, hend⟩ := hname
  rw [checkedParseNextQuery, hr, Option.bind_some]
  have hnil : query.name.read 0 0 = [] := rfl
  rw [hnil] at hend
  generalize hparse : parseName (data.read 0 size.toNat) [] 0 = parsed at hend
  cases hend with
  | error e name =>
      have hquery : parseNextQuery (data.read 0 size.toNat) = .error e := by
        rw [parseNextQuery, hparse]
      exact ⟨_, _, rfl, by rw [hquery]⟩
  | ok q hsize hleft hlen =>
      by_cases hshort : q.left < 4
      · refine ⟨_, _, if_pos hshort, ?_⟩
        rw [parseNextQuery_short hparse (by rw [Mem.length_read]; omega)]
      · have hrest : data.read q.ptr q.left.toNat =
            data q.ptr :: data (q.ptr + 1) :: data (q.ptr + 2) :: data (q.ptr + 3) ::
              data.read (q.ptr + 4) (q.left.toNat - 4) := by
          rw [show q.left.toNat = q.left.toNat - 4 + 1 + 1 + 1 + 1 by omega]
          simp only [Mem.read_cons]
          rfl
        have hquery : parseNextQuery (data.read 0 size.toNat) =
            .ok (⟨q.name.read 0 q.len, half (data q.ptr) (data (q.ptr + 1)),
              half (data (q.ptr + 2)) (data (q.ptr + 3))⟩, q.ptr + 4) := by
          have hlength : size.toNat - (q.left.toNat - 4) = q.ptr + 4 := by omega
          rw [parseNextQuery, hparse, hrest]
          simp only [Mem.length_read, hlength]
        have hzero : store q.name q.len [0] = some (q.name.write q.len [0]) :=
          store_eq_some (Nat.succ_le_of_lt hlen)
        have hload (n : Nat) (hn : n ≤ 2) :
            load data size (q.ptr + n) 2 = some (data.read (q.ptr + n) 2) :=
          load_eq_some (by omega)
        have hname := read_write_name q.name q.len [0]
        refine ⟨(q.ptr + 4 : Nat), ⟨q.name.write q.len [0], half (data q.ptr) (data (q.ptr + 1)),
          half (data (q.ptr + 2)) (data (q.ptr + 3))⟩, ?_, ?_⟩
        · have hfirst : load data size q.ptr 2 = some (data.read q.ptr 2) :=
            hload 0 (Nat.zero_le 2)
          simp only [if_neg hshort, hzero, Option.bind_some, hfirst, hload 2 (Nat.le_refl 2),
            Option.map_some]
        · rw [hquery]
          simp only [Mem.length_read]
          exact ⟨trivial, hname, trivial, trivial⟩

end Accesses

/-- `parse_next_query` never leaves the message or the name, accepts the questions whose names have
room, and returns their lengths. -/
theorem parse_next_query_exact (data : Mem) (size : Int) (query : QueryMem) :
    ∃ n query', checkedParseNextQuery data size query = some (n, query') ∧
      (0 ≤ n ↔ ∃ labels t t' c c', IsQuestion (data.read 0 size.toNat) labels t t' c c') ∧
      (∀ labels t t' c c', IsQuestion (data.read 0 size.toNat) labels t t' c c' →
        n = ((encodeLabels labels ++ [0]).length + 4 : Nat) ∧
        query'.name.read 0 ((dotted labels).length + 1) = dotted labels ++ [0] ∧
        query'.type = half t t' ∧ query'.Class = half c c') ∧
      (n < 0 → n = -1 ∨ n = -2) := by
  obtain ⟨n, query', hchecked, hagree⟩ := checkedParseNextQuery_eq data size query
  refine ⟨n, query', hchecked, ?_⟩
  have hiff := parseNextQuery_eq_ok_iff (data.read 0 size.toNat)
  cases hparse : parseNextQuery (data.read 0 size.toNat) with
  | error e =>
      rw [hparse] at hagree hiff
      obtain rfl : n = e := hagree
      have herror := parseNextQuery_error hparse
      have hnone : ∀ labels t t' c c', ¬ IsQuestion (data.read 0 size.toNat) labels t t' c c' := by
        intro labels t t' c c' hq
        have := (hiff _ _).mpr ⟨labels, t, t', c, c', hq, rfl, rfl⟩
        cases this
      refine ⟨iff_of_false (by omega) ?_, ?_, fun _ => herror⟩
      · rintro ⟨labels, t, t', c, c', hq⟩
        exact hnone labels t t' c c' hq
      · exact fun labels t t' c c' hq => absurd hq (hnone labels t t' c c')
  | ok parsed =>
      obtain ⟨q, len⟩ := parsed
      rw [hparse] at hagree hiff
      obtain ⟨rfl, hname, htype, hclass⟩ := hagree
      refine ⟨iff_of_true (Int.natCast_nonneg len) ?_, ?_, fun hneg => absurd hneg (by omega)⟩
      · obtain ⟨labels, t, t', c, c', hq, -⟩ := (hiff q len).mp rfl
        exact ⟨labels, t, t', c, c', hq⟩
      · intro labels t t' c c' hq
        have heq := (hiff _ _).mpr ⟨labels, t, t', c, c', hq, rfl, rfl⟩
        cases heq
        have hlen : (question labels t t' c c').length =
            (encodeLabels labels ++ [0]).length + 4 := by
          simp only [question, List.length_append, List.length_cons, List.length_nil]
        exact ⟨congrArg Nat.cast hlen, hname, htype, hclass⟩

end Adhoc.Dns
