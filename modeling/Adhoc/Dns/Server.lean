import Mathlib.Data.List.GetD
import Adhoc.Lib.DnsWire
import Adhoc.Lib.Mem

/-!
# The DNS server

A datagram is the list of its `p->len` octets.  `query_proc` is a parameter, a
function of the C string it is handed.

The reply copies the header and the question of the request, sets the response
flag and the number of answers, and adds one answer.  The other two record counts
and the type and class of the question are those of the request, and nothing
looked at them: `reply_answers_iff` says which requests that serves.
-/

namespace Adhoc.Dns

open ByteMem DnsWire

/-- `DNS_MAX_HOST_NAME_LEN`. -/
@[simp] def dnsMaxHostNameLen : Nat := 128

/-- `sizeof(dns_header_t)`. -/
@[simp] def dnsHeaderSize : Nat := 12

/-- `dns_query_t`, the name without the zero that ends it. -/
structure DnsQuery where
  name : List UInt8
  type : UInt16
  Class : UInt16

/-- The loop of `parse_next_query`: the octets left, the name so far, and how many labels it
has.  Yields the name and the octets behind it. -/
def parseName (data name : List UInt8) (lables : Nat) : Except Int (List UInt8 × List UInt8) :=
  match data with
  | [] => .error (-1)
  | lableLen :: data =>
      if lableLen = 0 then .ok (name, data)
      else if 0 < lables ∧ name.length = dnsMaxHostNameLen then .error (-2)
      else
        let name := if 0 < lables then name ++ [0x2E] else name
        if data.length < lableLen.toNat then .error (-1)
        else if dnsMaxHostNameLen ≤ name.length + lableLen.toNat then .error (-2)
        else parseName (data.drop lableLen.toNat) (name ++ data.take lableLen.toNat) (lables + 1)
termination_by data.length
decreasing_by
  rw [List.length_drop]
  exact Nat.lt_succ_of_le (Nat.sub_le ..)

/-- A `uint16_t` in memory, least significant octet first. -/
def half (a b : UInt8) : UInt16 := .ofNat (a.toNat + 256 * b.toNat)

/-- `parse_next_query`: the query, and the length of what was parsed. -/
def parseNextQuery (data : List UInt8) : Except Int (DnsQuery × Nat) :=
  match parseName data [] 0 with
  | .error e => .error e
  | .ok (name, t :: t' :: c :: c' :: rest) =>
      .ok (⟨name, half t t', half c c'⟩, data.length - rest.length)
  | .ok _ => .error (-1)

/-- The answer: `dns_answer_t` with the name pointer `0xC00C`, type and class 1, 32 seconds and
four octets of address. -/
def answer (addr : UInt32) : List UInt8 :=
  [0xC0, 0x0C, 0, 1, 0, 1, 0, 0, 0, 32, 0, 4] ++ wordBytes addr

/-- The reply, from the header and the question of the request. -/
def reply (out : List UInt8) (addr : UInt32) : List UInt8 :=
  ((out.set 2 (out.getD 2 0 ||| 0x80)).set 6 0).set 7 1 ++ answer addr

/-- `udp_recv_proc`: the datagram it sends.  `alloc` tells whether `pbuf_alloc` succeeds. -/
def udpRecvProc (queryProc : List UInt8 → Option UInt32) (alloc : Bool) (p : List UInt8) :
    Option (List UInt8) :=
  if p.length ≤ dnsHeaderSize then none
  else if p.getD 2 0 &&& 0x80 ≠ 0 then none
  else if questionCount p ≠ 1 then none
  else
    match parseNextQuery (p.drop dnsHeaderSize) with
    | .error _ => none
    | .ok (query, len) =>
        match queryProc (cString query.name) with
        | none => none
        | some hostAddr =>
            if alloc then some (reply (p.take (dnsHeaderSize + len)) hostAddr) else none

/-! ## Parsing -/

/-- A name that parses is a list of labels of 1 to 127 octets, ended by an empty one. -/
theorem parseName_ok {data name name' rest : List UInt8} {lables : Nat}
    (h : parseName data name lables = .ok (name', rest)) :
    ∃ labels : Name, data = encodeLabels labels ++ 0 :: rest ∧
      ∀ l ∈ labels, 0 < l.length ∧ l.length < 192 := by
  fun_induction parseName data name lables with
  | case1 => cases h
  | case2 name lables data =>
      cases h
      exact ⟨[], rfl, nofun⟩
  | case3 => cases h
  | case4 => cases h
  | case5 => cases h
  | case6 name lables lableLen data hne _ name₁ hfit hlong ih =>
      obtain ⟨labels, heq, hlabels⟩ := ih h
      have hlen : (data.take lableLen.toNat).length = lableLen.toNat :=
        List.length_take_of_le (Nat.le_of_not_lt hfit)
      have hpos : 0 < lableLen.toNat :=
        Nat.pos_of_ne_zero fun hzero => hne (UInt8.toNat_inj.mp hzero)
      simp only [dnsMaxHostNameLen] at hlong
      refine ⟨data.take lableLen.toNat :: labels, ?_, fun l hl => ?_⟩
      · rw [encodeLabels_cons, hlen, UInt8.ofNat_toNat, List.cons_append, List.append_assoc, ← heq,
          List.take_append_drop]
      · rcases List.mem_cons.mp hl with rfl | hl
        · rw [hlen]
          omega
        · exact hlabels l hl

/-- What `parse_next_query` parses is a list of labels and the two words of a question. -/
theorem parseNextQuery_ok {data : List UInt8} {query : DnsQuery} {len : Nat}
    (h : parseNextQuery data = .ok (query, len)) :
    ∃ (labels : Name) (t t' c c' : UInt8) (rest : List UInt8),
      data = (encodeLabels labels ++ [0, t, t', c, c']) ++ rest ∧
      len = (encodeLabels labels ++ [0, t, t', c, c']).length ∧
      ∀ l ∈ labels, 0 < l.length ∧ l.length < 192 := by
  unfold parseNextQuery at h
  split at h
  next => cases h
  next name t t' c c' rest hparse =>
    cases h
    obtain ⟨labels, rfl, hlabels⟩ := parseName_ok hparse
    refine ⟨labels, t, t', c, c', rest, ?_, ?_, hlabels⟩
    · rw [List.append_assoc]
      rfl
    · simp only [List.length_append, List.length_cons, List.length_nil]
      omega
  next => cases h

/-! ## The reply -/

section Reply

variable {out : List UInt8} {addr : UInt32}

/-- The header of a reply, octet by octet. -/
theorem getD_reply (hlen : dnsHeaderSize ≤ out.length) {i : Nat} (h : i < dnsHeaderSize) :
    (reply out addr).getD i 0 =
      if i = 7 then 1 else if i = 6 then 0 else if i = 2 then out.getD 2 0 ||| 0x80
      else out.getD i 0 := by
  simp only [dnsHeaderSize] at hlen h
  have hi : i < out.length := Nat.lt_of_lt_of_le h hlen
  rw [reply, List.getD_append _ _ _ _ (by simpa using hi), List.getD_eq_getElem?_getD]
  simp only [List.getElem?_set, List.length_set, List.getD_eq_getElem?_getD, eq_comm (b := i)]
  split_ifs
  · rfl
  · omega
  · rfl
  · omega
  · rfl
  · omega
  · rfl

/-- What follows the header of a reply. -/
theorem drop_reply (hlen : dnsHeaderSize ≤ out.length) :
    (reply out addr).drop dnsHeaderSize = out.drop dnsHeaderSize ++ answer addr := by
  simp only [dnsHeaderSize] at hlen ⊢
  rw [reply, List.drop_append_of_le_length (by simpa using hlen), List.drop_set_of_lt (by decide),
    List.drop_set_of_lt (by decide), List.drop_set_of_lt (by decide)]

/-- The question of a request, as `parse_next_query` parses it. -/
def question (labels : Name) (t t' c c' : UInt8) : List UInt8 :=
  encodeLabels labels ++ [0, t, t', c, c']

/-- A datagram that is answered is a header, a question and anything, and the reply is made from
the first two. -/
theorem udpRecvProc_some {queryProc : List UInt8 → Option UInt32} {alloc : Bool}
    {p : List UInt8} (h : udpRecvProc queryProc alloc p = some out) :
    questionCount p = 1 ∧ ∃ header labels t t' c c' rest addr,
      p = header ++ (question labels t t' c c' ++ rest) ∧ header.length = dnsHeaderSize ∧
        (∀ l ∈ labels, 0 < l.length ∧ l.length < 192) ∧
          out = reply (header ++ question labels t t' c c') addr := by
  unfold udpRecvProc at h
  split at h
  next => cases h
  next hlen =>
    split at h
    next => cases h
    next =>
      split at h
      next => cases h
      next hcount =>
        split at h
        next => cases h
        next query len hparse =>
          split at h
          next => cases h
          next addr _ =>
            split at h
            next =>
              cases h
              obtain ⟨labels, t, t', c, c', rest, hdata, rfl, hlabels⟩ := parseNextQuery_ok hparse
              have hheader : (p.take dnsHeaderSize).length = dnsHeaderSize :=
                List.length_take_of_le (Nat.le_of_not_le hlen)
              have hp : p = p.take dnsHeaderSize ++ (question labels t t' c c' ++ rest) := by
                rw [question, ← hdata, List.take_append_drop]
              refine ⟨Decidable.not_not.mp hcount, p.take dnsHeaderSize, labels, t, t', c, c', rest,
                addr, hp, hheader, hlabels, ?_⟩
              congr 1
              rw [List.take_add, hdata, List.take_left' rfl]
              rfl
            next => cases h

variable {header : List UInt8} {labels : Name} {t t' c c' : UInt8}

/-- The question of a reply is read with what it asks. -/
theorem readQuestion_question {msg : List UInt8} (h : labels.Readable)
    (hlen : labels.length ≤ msg.length) (t t' c c' : UInt8) (rest : List UInt8) :
    readQuestion msg (question labels t t' c c' ++ rest) =
      some (⟨labels, word16 t t', word16 c c'⟩, rest) := by
  rw [question, List.append_assoc]
  exact readQuestion_encode h hlen t t' c c' rest

/-- The answer is read with the name of the question. -/
theorem readRecord_answer {msg : List UInt8} (h : labels.Readable)
    (hlen : labels.length < msg.length) {rest : List UInt8}
    (hmsg : msg.drop dnsHeaderSize = encodeLabels labels ++ 0 :: rest) (addr : UInt32) :
    readRecord msg (answer addr) = some (⟨labels, 1, 1, 32, wordBytes addr⟩, []) := by
  have hname : readName msg msg.length (msg.drop (word16 (0xC0 - 192) 0x0C)) =
      some (labels, rest) := by
    rw [show word16 (0xC0 - 192) 0x0C = dnsHeaderSize from rfl, hmsg, readName_encode h hlen]
  have hlength : (wordBytes addr).length = word16 0 4 :=
    calc
      (wordBytes addr).length = 4 := rfl
      _ = word16 0 4 := by decide
  have hread := readRecord_pointer (by decide) hname 0 1 0 1 0 0 0 32 0 4 hlength []
  rw [List.append_nil] at hread
  exact hread

/-- The octets of the header that a reply takes from its request. -/
theorem getD_reply_request (hheader : header.length = dnsHeaderSize) (x y : List UInt8) {i : Nat}
    (h : i < dnsHeaderSize) (h2 : i ≠ 2) (h6 : i ≠ 6) (h7 : i ≠ 7) :
    (reply (header ++ x) addr).getD i 0 = (header ++ y).getD i 0 := by
  rw [getD_reply (by rw [List.length_append, hheader]; exact Nat.le_add_right ..) h, if_neg h7,
    if_neg h6, if_neg h2, List.getD_append _ _ _ _ (hheader ▸ h),
    List.getD_append _ _ _ _ (hheader ▸ h)]

/-- The counts and the identifier of a reply. -/
theorem header_reply (addr : UInt32) (hheader : header.length = dnsHeaderSize) (x y : List UInt8) :
    let msg := reply (header ++ x) addr
    messageId msg = messageId (header ++ y) ∧ questionCount msg = questionCount (header ++ y) ∧
      answerCount msg = 1 ∧ authorityCount msg = authorityCount (header ++ y) ∧
        additionalCount msg = additionalCount (header ++ y) ∧ 128 ≤ msg.getD 2 0 := by
  have hlen : dnsHeaderSize ≤ (header ++ x).length := by
    rw [List.length_append, hheader]
    exact Nat.le_add_right ..
  have hkeep : ∀ i < dnsHeaderSize, i ≠ 2 → i ≠ 6 → i ≠ 7 →
      (reply (header ++ x) addr).getD i 0 = (header ++ y).getD i 0 := fun i =>
    getD_reply_request hheader x y
  have h6 : (reply (header ++ x) addr).getD 6 0 = 0 := getD_reply hlen (by decide)
  have h7 : (reply (header ++ x) addr).getD 7 0 = 1 := getD_reply hlen (by decide)
  refine ⟨?_, ?_, ?_, ?_, ?_, ?_⟩
  · rw [messageId, hkeep 0, hkeep 1, messageId] <;> decide
  · rw [questionCount, hkeep 4, hkeep 5, questionCount] <;> decide
  · rw [answerCount, h6, h7]
    decide
  · rw [authorityCount, hkeep 8, hkeep 9, authorityCount] <;> decide
  · rw [additionalCount, hkeep 10, hkeep 11, additionalCount] <;> decide
  · rw [getD_reply hlen (by decide), if_neg (by decide), if_neg (by decide), if_pos rfl,
      UInt8.le_iff_toNat_le, UInt8.toNat_or]
    exact Nat.right_le_or

end Reply

/-! ## Which requests are answered well -/

/-- A datagram is an answer to the request `p`: it is a message to its last octet, a response
with the request's identifier and question, and its one answer answers that question. -/
def Answers (p out : List UInt8) : Prop :=
  ∃ m q r rest, Message.read out = some m ∧ m.qr = true ∧ m.id = messageId p ∧
    readQuestion p (p.drop dnsHeaderSize) = some (q, rest) ∧ m.questions = [q] ∧
      m.answers = [r] ∧ r.Answers q

/-- A request the server can answer: it has no record behind its question, and the question,
of labels of at most 63 octets, asks for an address in the Internet class or for anything. -/
def Answerable (p : List UInt8) : Prop :=
  authorityCount p = 0 ∧ additionalCount p = 0 ∧
    ∃ q rest, readQuestion p (p.drop dnsHeaderSize) = some (q, rest) ∧
      (q.qtype = 1 ∨ q.qtype = 255) ∧ (q.qclass = 1 ∨ q.qclass = 255)

/-- What a reply reads as, where its question can be read. -/
theorem read_reply {header : List UInt8} {labels : Name} (t t' c c' : UInt8) (addr : UInt32)
    (hheader : header.length = dnsHeaderSize) (hlabels : labels.Readable) (y : List UInt8)
    (hcount : questionCount (header ++ y) = 1) :
    Message.read (reply (header ++ question labels t t' c c') addr) =
      if authorityCount (header ++ y) = 0 ∧ additionalCount (header ++ y) = 0 then
        some ⟨messageId (header ++ y), true, [⟨labels, word16 t t', word16 c c'⟩],
          [⟨labels, 1, 1, 32, wordBytes addr⟩], [], []⟩
      else none := by
  obtain ⟨hid, hq, han, hns, har, hqr⟩ :=
    header_reply addr hheader (question labels t t' c c') y
  have hdrop : (reply (header ++ question labels t t' c c') addr).drop dnsHeaderSize =
      question labels t t' c c' ++ answer addr := by
    rw [drop_reply (by rw [List.length_append, hheader]; exact Nat.le_add_right ..),
      List.drop_left' hheader]
  generalize reply (header ++ question labels t t' c c') addr = msg at *
  have hlen : dnsHeaderSize + labels.length < msg.length := by
    have hlen := congrArg List.length hdrop
    have hle := length_le_length_encodeLabels labels
    simp only [List.length_drop, question, List.length_append, List.length_cons] at hlen
    omega
  have hquestion := readMany_one (readQuestion_question hlabels
    (show labels.length ≤ msg.length by omega) t t' c c' (answer addr))
  have hanswer := readMany_one (readRecord_answer hlabels (show labels.length < msg.length by omega)
    (by rw [hdrop, question, List.append_assoc]; rfl) addr)
  rw [Message.read_answers (by simp only [dnsHeaderSize] at hlen; omega)
    (by rw [hq, hcount]; exact hdrop ▸ hquestion) (by rw [han]; exact hanswer), hid, hns, har,
    decide_eq_true hqr]

/-- A reply is an answer to the requests the server can answer, and to no other. -/
theorem reply_answers_iff (queryProc : List UInt8 → Option UInt32) (alloc : Bool)
    (p out : List UInt8) (h : udpRecvProc queryProc alloc p = some out) :
    Answers p out ↔ Answerable p := by
  obtain ⟨hcount, header, labels, t, t', c, c', rest, addr, rfl, hheader, hlabels, rfl⟩ :=
    udpRecvProc_some h
  by_cases hread : labels.Readable
  · have hquestion : readQuestion (header ++ (question labels t t' c c' ++ rest))
        ((header ++ (question labels t t' c c' ++ rest)).drop dnsHeaderSize) =
          some (⟨labels, word16 t t', word16 c c'⟩, rest) := by
      rw [List.drop_left' hheader, readQuestion_question hread]
      have hle := length_le_length_encodeLabels labels
      simp only [question, List.length_append]
      omega
    have hmsg := read_reply t t' c c' addr hheader hread _ hcount
    constructor
    · rintro ⟨m, q, r, rest', hm, -, -, hq, -, hr, -, htype, hclass⟩
      rw [hmsg] at hm
      split at hm
      next hnone =>
        cases hm
        cases hr
        exact ⟨hnone.1, hnone.2, q, rest', hq, htype, hclass⟩
      next => cases hm
    · rintro ⟨hns, har, q, rest', hq, htype, hclass⟩
      rw [hquestion] at hq
      cases hq
      rw [if_pos ⟨hns, har⟩] at hmsg
      exact ⟨_, _, _, rest, hmsg, rfl, rfl, hquestion, rfl, rfl, rfl, htype, hclass⟩
  · have hquestion : readQuestion (header ++ (question labels t t' c c' ++ rest))
        ((header ++ (question labels t t' c c' ++ rest)).drop dnsHeaderSize) = none := by
      rw [List.drop_left' hheader, question, List.append_assoc,
        readQuestion_unreadable hlabels hread]
    constructor
    · rintro ⟨_, _, _, _, _, _, _, hq, _⟩
      rw [hquestion] at hq
      cases hq
    · rintro ⟨_, _, _, _, hq, _⟩
      rw [hquestion] at hq
      cases hq

/-- A request for the address of the name `a`, with `opt` behind its question. -/
def request (additional : UInt8) (opt : List UInt8) : List UInt8 :=
  [0x12, 0x34, 1, 0, 0, 1, 0, 0, 0, 0, 0, additional] ++ ([1, 0x61, 0, 0, 1, 0, 1] ++ opt)

/-- An `OPT` record that offers datagrams of 4096 octets. -/
def optRecord : List UInt8 := [0, 0, 41, 0x10, 0, 0, 0, 0, 0, 0, 0]

/-- The question of the request parses. -/
theorem parseNextQuery_request (opt : List UInt8) :
    parseNextQuery ([1, 0x61, 0, 0, 1, 0, 1] ++ opt) = .ok (⟨[0x61], 256, 256⟩, 7) := by
  have hname : parseName ([1, 0x61, 0, 0, 1, 0, 1] ++ opt) [] 0 =
      .ok ([0x61], 0 :: 1 :: 0 :: 1 :: opt) := by
    simp [parseName]
  rw [parseNextQuery, hname]
  have hlen : ([1, 0x61, 0, 0, 1, 0, 1] ++ opt).length - opt.length = 7 := by
    rw [List.length_append, Nat.add_sub_cancel]
    rfl
  simp only [hlen]
  rfl

/-- What is sent for it, whatever is behind the question. -/
theorem udpRecvProc_request (additional : UInt8) (opt : List UInt8) :
    udpRecvProc (fun _ => some 0x0104A8C0) true (request additional opt) =
      some (reply (request additional []) 0x0104A8C0) := by
  have hlen : ¬ (request additional opt).length ≤ dnsHeaderSize := by
    simp [request]
  have hqr : ¬ (request additional opt).getD 2 0 &&& 0x80 ≠ 0 := by
    simp only [request, List.getD_cons_succ, List.getD_cons_zero, List.cons_append]
    decide
  have hcount : ¬ questionCount (request additional opt) ≠ 1 := by
    simp only [questionCount, request, List.getD_cons_succ, List.getD_cons_zero, List.cons_append]
    decide
  have hdrop : (request additional opt).drop dnsHeaderSize = [1, 0x61, 0, 0, 1, 0, 1] ++ opt := rfl
  rw [udpRecvProc, if_neg hlen, if_neg hqr, if_neg hcount, hdrop, parseNextQuery_request]
  rfl

/-- The reply to a request for an address is an answer. -/
theorem reply_answers_plain :
    ∃ out, udpRecvProc (fun _ => some 0x0104A8C0) true (request 0 []) = some out ∧
      Answers (request 0 []) out := by
  have hanswerable : Answerable (request 0 []) :=
    ⟨by decide, by decide, ⟨[[0x61]], 1, 1⟩, [], by decide, .inl rfl, .inl rfl⟩
  exact ⟨_, udpRecvProc_request 0 [],
    (reply_answers_iff _ true _ _ (udpRecvProc_request 0 [])).mpr hanswerable⟩

/-- The reply to the same request with an `OPT` record counts an additional record it has
not. -/
theorem reply_edns_unreadable :
    ¬ ∀ queryProc alloc p out, udpRecvProc queryProc alloc p = some out → Answers p out := by
  intro h
  obtain ⟨m, _, _, _, hread, _⟩ := h _ true _ _ (udpRecvProc_request 1 optRecord)
  have hnone : Message.read (reply (request 1 []) 0x0104A8C0) = none := by decide
  rw [hnone] at hread
  cases hread

end Adhoc.Dns
