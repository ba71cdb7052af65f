import Mathlib.Tactic.Common

/-!
# DNS messages on the wire

A message is a header of twelve octets, then the questions and the resource
records its header counts, and nothing else.  A name is a list of labels of 1 to
63 octets, ended by an empty one or by a pointer to an earlier name.

`Message.read` reads a message.  Every reader takes a list of octets and returns
what it read and the octets behind, so the rule for a reader speaks about a list
that begins with something encoded (`readName_encode`, `readQuestion_encode`,
`readRecord_encode`).
-/

namespace DnsWire

/-! ## Names -/

/-- A name, label by label. -/
abbrev Name : Type := List (List UInt8)

/-- The labels one after the other, each behind its length. -/
def encodeLabels (name : Name) : List UInt8 := name.flatMap fun l => .ofNat l.length :: l

/-- The labels a length octet can announce. -/
def Name.Readable (name : Name) : Prop := ∀ l ∈ name, 0 < l.length ∧ l.length < 64

/-- The number two octets make, most significant first. -/
def word16 (a b : UInt8) : Nat := a.toNat * 256 + b.toNat

/-- The name that begins a list of octets of the message `msg`. -/
def readName (msg : List UInt8) : Nat → List UInt8 → Option (Name × List UInt8)
  | 0, _ => none
  | _ + 1, [] => none
  | fuel + 1, b :: bs =>
      if b = 0 then some ([], bs)
      else if b < 64 then
        if bs.length < b.toNat then none
        else
          (readName msg fuel (bs.drop b.toNat)).map fun (name, rest) =>
            (bs.take b.toNat :: name, rest)
      else if b < 192 then none
      else
        bs.head?.bind fun c =>
          (readName msg fuel (msg.drop (word16 (b - 192) c))).map fun (name, _) => (name, bs.tail)

variable {msg : List UInt8} {name : Name} {fuel : Nat}

@[simp] theorem encodeLabels_cons (l : List UInt8) (name : Name) :
    encodeLabels (l :: name) = .ofNat l.length :: (l ++ encodeLabels name) := rfl

/-- A name has no more labels than octets. -/
theorem length_le_length_encodeLabels (name : Name) : name.length ≤ (encodeLabels name).length := by
  induction name with
  | nil => exact Nat.le_refl 0
  | cons l name ih =>
      rw [encodeLabels_cons, List.length_cons, List.length_cons, List.length_append]
      omega

/-- The octet of a label's length. -/
theorem toNat_ofNat_length {l : List UInt8} (h : l.length < 256) :
    (UInt8.ofNat l.length).toNat = l.length := by
  rw [UInt8.toNat_ofNat']
  exact Nat.mod_eq_of_lt h

/-- One label of a name. -/
theorem readName_label {l bs : List UInt8} (h : 0 < l.length) (h' : l.length < 64) :
    readName msg (fuel + 1) (.ofNat l.length :: (l ++ bs)) =
      (readName msg fuel bs).map fun (name, rest) => (l :: name, rest) := by
  have hlen := toNat_ofNat_length (l := l) (by omega)
  have hne : ¬ UInt8.ofNat l.length = 0 := by
    intro hzero
    rw [hzero] at hlen
    exact absurd hlen.symm (Nat.ne_of_gt h)
  have hlt : UInt8.ofNat l.length < 64 := by
    rw [UInt8.lt_iff_toNat_lt, hlen]
    exact h'
  rw [readName, if_neg hne, if_pos hlt, hlen, if_neg (by simp), List.drop_left' rfl,
    List.take_left' rfl]

/-- A name that ends with an empty label is read back. -/
theorem readName_encode (h : name.Readable) (hfuel : name.length < fuel) (rest : List UInt8) :
    readName msg fuel (encodeLabels name ++ 0 :: rest) = some (name, rest) := by
  induction name generalizing fuel with
  | nil =>
      cases fuel with
      | zero => cases hfuel
      | succ fuel => rfl
  | cons l name ih =>
      cases fuel with
      | zero => cases hfuel
      | succ fuel =>
          obtain ⟨hpos, hlt⟩ := h l (.head _)
          rw [encodeLabels_cons, List.cons_append, List.append_assoc, readName_label hpos hlt,
            ih (fun l' hl' => h l' (.tail _ hl')) (Nat.lt_of_succ_lt_succ hfuel)]
          rfl

/-- A label whose length octet is neither a length nor a pointer stops the reader. -/
theorem readName_unreadable (h : ∀ l ∈ name, 0 < l.length ∧ l.length < 192)
    (hnot : ¬ name.Readable) (rest : List UInt8) :
    readName msg fuel (encodeLabels name ++ rest) = none := by
  induction name generalizing fuel with
  | nil => exact absurd (fun l hl => nomatch hl) hnot
  | cons l name ih =>
      cases fuel with
      | zero => rfl
      | succ fuel =>
          obtain ⟨hpos, hlt⟩ := h l (.head _)
          rw [encodeLabels_cons, List.cons_append, List.append_assoc]
          by_cases hshort : l.length < 64
          · rw [readName_label hpos hshort, ih (fun l' hl' => h l' (.tail _ hl'))]
            · rfl
            · intro hreadable
              refine hnot fun l' hl' => ?_
              rcases List.mem_cons.mp hl' with rfl | hl'
              · exact ⟨hpos, hshort⟩
              · exact hreadable l' hl'
          · have hlen := toNat_ofNat_length (l := l) (by omega)
            have hne : ¬ UInt8.ofNat l.length = 0 := by
              intro hzero
              rw [hzero] at hlen
              exact absurd hlen.symm (Nat.ne_of_gt hpos)
            have hge : ¬ UInt8.ofNat l.length < 64 := by
              rw [UInt8.lt_iff_toNat_lt, hlen]
              exact hshort
            have hlt' : UInt8.ofNat l.length < 192 := by
              rw [UInt8.lt_iff_toNat_lt, hlen]
              exact hlt
            rw [readName, if_neg hne, if_neg hge, if_pos hlt']

/-- A pointer is the name it points at. -/
theorem readName_pointer {b c : UInt8} {bs : List UInt8} (h : ¬ b < 192) :
    readName msg (fuel + 1) (b :: c :: bs) =
      (readName msg fuel (msg.drop (word16 (b - 192) c))).map fun (name, _) => (name, bs) := by
  have hge : ¬ b.toNat < 192 := fun hlt => h (UInt8.lt_iff_toNat_lt.mpr hlt)
  have hne : ¬ b = 0 := by
    rintro rfl
    exact hge (by decide)
  have hge' : ¬ b < 64 := fun hlt => hge (Nat.lt_trans (UInt8.lt_iff_toNat_lt.mp hlt) (by decide))
  rw [readName, if_neg hne, if_neg hge', if_neg h]
  rfl

/-! ## Questions and records -/

/-- A question. -/
structure Question where
  name : Name
  qtype : Nat
  qclass : Nat
deriving DecidableEq

/-- A resource record. -/
structure Record where
  name : Name
  rtype : Nat
  rclass : Nat
  ttl : Nat
  rdata : List UInt8
deriving DecidableEq

/-- The question that begins a list of octets of the message. -/
def readQuestion (msg bs : List UInt8) : Option (Question × List UInt8) :=
  match readName msg (msg.length + 1) bs with
  | some (name, t :: t' :: c :: c' :: rest) => some (⟨name, word16 t t', word16 c c'⟩, rest)
  | _ => none

/-- The resource record that begins a list of octets of the message. -/
def readRecord (msg bs : List UInt8) : Option (Record × List UInt8) :=
  match readName msg (msg.length + 1) bs with
  | some (name, t :: t' :: c :: c' :: l₀ :: l₁ :: l₂ :: l₃ :: n :: n' :: rest) =>
      if rest.length < word16 n n' then none
      else
        some (⟨name, word16 t t', word16 c c', word16 l₀ l₁ * 65536 + word16 l₂ l₃,
          rest.take (word16 n n')⟩, rest.drop (word16 n n'))
  | _ => none

/-- So many of what a reader reads. -/
def readMany {α : Type} (read : List UInt8 → Option (α × List UInt8)) :
    Nat → List UInt8 → Option (List α × List UInt8)
  | 0, bs => some ([], bs)
  | n + 1, bs =>
      (read bs).bind fun (x, rest) => (readMany read n rest).map fun (xs, rest) => (x :: xs, rest)

/-- A question that begins with a name of readable labels is read. -/
theorem readQuestion_encode (h : name.Readable) (hlen : name.length ≤ msg.length)
    (t t' c c' : UInt8) (rest : List UInt8) :
    readQuestion msg (encodeLabels name ++ 0 :: t :: t' :: c :: c' :: rest) =
      some (⟨name, word16 t t', word16 c c'⟩, rest) := by
  rw [readQuestion, readName_encode h (Nat.lt_succ_of_le hlen)]

/-- A question that begins with an unreadable name is not read. -/
theorem readQuestion_unreadable (h : ∀ l ∈ name, 0 < l.length ∧ l.length < 192)
    (hnot : ¬ name.Readable) (rest : List UInt8) :
    readQuestion msg (encodeLabels name ++ rest) = none := by
  rw [readQuestion, readName_unreadable h hnot]

/-- A record whose name is a pointer. -/
theorem readRecord_pointer {b c : UInt8} (h : ¬ b < 192) {behind : List UInt8}
    (hname : readName msg msg.length (msg.drop (word16 (b - 192) c)) = some (name, behind))
    (t t' k k' l₀ l₁ l₂ l₃ n n' : UInt8) {rdata : List UInt8} (hlen : rdata.length = word16 n n')
    (rest : List UInt8) :
    readRecord msg
        (b :: c :: t :: t' :: k :: k' :: l₀ :: l₁ :: l₂ :: l₃ :: n :: n' :: (rdata ++ rest)) =
      some (⟨name, word16 t t', word16 k k', word16 l₀ l₁ * 65536 + word16 l₂ l₃,
        rdata⟩, rest) := by
  rw [readRecord, readName_pointer h, hname]
  simp only [Option.map_some]
  rw [if_neg, List.take_left' hlen, List.drop_left' hlen]
  rw [List.length_append, hlen]
  omega

/-- No record begins an empty list. -/
theorem readRecord_nil (msg : List UInt8) : readRecord msg [] = none := rfl

section Many

variable {α : Type} {read : List UInt8 → Option (α × List UInt8)} {bs rest : List UInt8}

/-- Reading one. -/
theorem readMany_one {x : α} (h : read bs = some (x, rest)) :
    readMany read 1 bs = some ([x], rest) := by
  rw [readMany, h]
  rfl

/-- Where nothing can be read, at least one cannot. -/
theorem readMany_none (h : read bs = none) {n : Nat} (hn : n ≠ 0) : readMany read n bs = none := by
  cases n with
  | zero => exact absurd rfl hn
  | succ n =>
      rw [readMany, h]
      rfl

end Many

/-! ## Messages -/

/-- A message. -/
structure Message where
  id : Nat
  /-- The response flag. -/
  qr : Bool
  questions : List Question
  answers : List Record
  authorities : List Record
  additionals : List Record
deriving DecidableEq

/-- The identifier in the header. -/
def messageId (msg : List UInt8) : Nat := word16 (msg.getD 0 0) (msg.getD 1 0)

/-- The counts in the header, of the questions and of the records of the three sections. -/
def questionCount (msg : List UInt8) : Nat := word16 (msg.getD 4 0) (msg.getD 5 0)

def answerCount (msg : List UInt8) : Nat := word16 (msg.getD 6 0) (msg.getD 7 0)

def authorityCount (msg : List UInt8) : Nat := word16 (msg.getD 8 0) (msg.getD 9 0)

def additionalCount (msg : List UInt8) : Nat := word16 (msg.getD 10 0) (msg.getD 11 0)

/-- Reads a message to its last octet. -/
def Message.read (msg : List UInt8) : Option Message := do
  let (questions, rest) ← readMany (readQuestion msg) (questionCount msg) (msg.drop 12)
  let (answers, rest) ← readMany (readRecord msg) (answerCount msg) rest
  let (authorities, rest) ← readMany (readRecord msg) (authorityCount msg) rest
  let (additionals, rest) ← readMany (readRecord msg) (additionalCount msg) rest
  if msg.length < 12 ∨ rest ≠ [] then none
  else
    some ⟨messageId msg, decide (128 ≤ msg.getD 2 0), questions, answers, authorities, additionals⟩

/-- A message that ends behind its answers is one if its header counts no other records. -/
theorem Message.read_answers {questions : List Question} {answers : List Record}
    {bs : List UInt8} (hlen : 12 ≤ msg.length)
    (hq : readMany (readQuestion msg) (questionCount msg) (msg.drop 12) = some (questions, bs))
    (ha : readMany (readRecord msg) (answerCount msg) bs = some (answers, [])) :
    Message.read msg =
      if authorityCount msg = 0 ∧ additionalCount msg = 0 then
        some ⟨messageId msg, decide (128 ≤ msg.getD 2 0), questions, answers, [], []⟩
      else none := by
  have hnil := readRecord_nil msg
  simp only [Message.read, hq, ha, Option.bind_eq_bind, Option.bind_some]
  by_cases hns : authorityCount msg = 0
  · rw [hns, readMany, Option.bind_some]
    by_cases har : additionalCount msg = 0
    · rw [har, readMany, Option.bind_some, if_neg, if_pos ⟨rfl, rfl⟩]
      exact fun h => h.elim (Nat.not_lt_of_le hlen) (· rfl)
    · rw [readMany_none hnil har, if_neg fun h => har h.2]
      rfl
  · rw [readMany_none hnil hns, if_neg fun h => hns h.1]
    rfl

/-- A record answers a question of its own type and class, or of any. -/
def Record.Answers (r : Record) (q : Question) : Prop :=
  r.name = q.name ∧ (q.qtype = r.rtype ∨ q.qtype = 255) ∧ (q.qclass = r.rclass ∨ q.qclass = 255)

end DnsWire
