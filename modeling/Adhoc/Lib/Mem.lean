import Mathlib.Tactic.Common

/-!
# Byte memories

A byte memory is a total function from addresses to octets.  An object of `n`
octets is the range `[off, off + n)` of one.  A store outside an object is
therefore still a store, at an address the object does not own, and a proof can
speak about it.

Two operations move octets, `Mem.read` and `Mem.write`.  A 32-bit word is four
octets, least significant first, read by `Mem.word` and laid out by `wordBytes`.
The laws say what a read returns after a write, at the same place
(`Mem.read_write_self`, `Mem.word_write_wordBytes`) and at a disjoint one
(`Mem.read_write_disjoint`, `Mem.word_write_disjoint`).
-/

namespace ByteMem

/-- A memory of octets. -/
abbrev Mem : Type := Nat → UInt8

/-- The memory that holds zero everywhere. -/
def Mem.zero : Mem := fun _ => 0

/-- The `n` octets from `off` on. -/
def Mem.read (m : Mem) (off n : Nat) : List UInt8 := (List.range' off n).map m

/-- The memory after the octets `bs` are stored from `off` on. -/
def Mem.write (m : Mem) (off : Nat) (bs : List UInt8) : Mem := fun i =>
  if off ≤ i then bs[i - off]?.getD (m i) else m i

/-- The 32-bit word at `off`, least significant octet first. -/
def Mem.word (m : Mem) (off : Nat) : UInt32 :=
  .ofNat ((m off).toNat + 256 * (m (off + 1)).toNat + 65536 * (m (off + 2)).toNat +
    16777216 * (m (off + 3)).toNat)

/-- The 16-bit word at `off`, least significant octet first. -/
def Mem.half (m : Mem) (off : Nat) : UInt16 :=
  .ofNat ((m off).toNat + 256 * (m (off + 1)).toNat)

/-- The two octets of a 16-bit word, least significant first. -/
def halfBytes (w : UInt16) : List UInt8 := [.ofNat w.toNat, .ofNat (w.toNat / 256)]

/-- The four octets of a word, least significant first. -/
def wordBytes (w : UInt32) : List UInt8 :=
  [.ofNat w.toNat, .ofNat (w.toNat / 256), .ofNat (w.toNat / 65536), .ofNat (w.toNat / 16777216)]

/-! ## Reading -/

@[simp] theorem Mem.length_read (m : Mem) (off n : Nat) : (m.read off n).length = n := by
  simp [Mem.read]

@[simp] theorem Mem.getElem_read (m : Mem) (off n i : Nat) (h : i < (m.read off n).length) :
    (m.read off n)[i] = m (off + i) := by
  simp [Mem.read]

/-- Memories that agree on a range read the same octets there. -/
theorem Mem.read_congr {m m' : Mem} {off n : Nat}
    (h : ∀ i, off ≤ i → i < off + n → m i = m' i) : m.read off n = m'.read off n := by
  unfold Mem.read
  apply List.map_congr_left
  intro i hi
  rw [List.mem_range'_1] at hi
  exact h i hi.1 hi.2

/-- A range is a front part and the rest. -/
theorem Mem.read_add (m : Mem) (off a b : Nat) :
    m.read off (a + b) = m.read off a ++ m.read (off + a) b := by
  unfold Mem.read
  rw [← List.map_append, List.range'_append_1]

/-- A range and its first octet. -/
theorem Mem.read_cons (m : Mem) (off n : Nat) :
    m.read off (n + 1) = m off :: m.read (off + 1) n := by
  rw [Nat.add_comm, Mem.read_add]
  rfl

/-- A piece of a range. -/
theorem Mem.take_drop_read (m : Mem) (off : Nat) {k j n : Nat} (h : k + j ≤ n) :
    ((m.read off n).drop k).take j = m.read (off + k) j := by
  rw [show n = k + (j + (n - (k + j))) by omega, Mem.read_add, Mem.read_add,
    List.drop_left' (Mem.length_read ..), List.take_left' (Mem.length_read ..)]

/-! ## Writing -/

theorem Mem.write_of_lt (m : Mem) {off i : Nat} (bs : List UInt8) (h : i < off) :
    m.write off bs i = m i := by
  rw [Mem.write, if_neg (by omega)]

theorem Mem.write_of_ge (m : Mem) {off i : Nat} {bs : List UInt8} (h : off + bs.length ≤ i) :
    m.write off bs i = m i := by
  unfold Mem.write
  split
  · rw [List.getElem?_eq_none (by omega)]; rfl
  · rfl

theorem Mem.write_of_mem (m : Mem) {off i : Nat} {bs : List UInt8} (h : off ≤ i)
    (h' : i - off < bs.length) : m.write off bs i = bs[i - off] := by
  rw [Mem.write, if_pos h, List.getElem?_eq_getElem h']; rfl

/-- A store leaves every octet outside its range alone. -/
theorem Mem.write_of_notMem (m : Mem) {off i : Nat} {bs : List UInt8}
    (h : i < off ∨ off + bs.length ≤ i) : m.write off bs i = m i := by
  rcases h with h | h
  · exact m.write_of_lt bs h
  · exact m.write_of_ge h

theorem Mem.read_write_self (m : Mem) (off : Nat) (bs : List UInt8) :
    (m.write off bs).read off bs.length = bs := by
  apply List.ext_getElem (by simp)
  intro i h h'
  have hlen : off + i - off < bs.length := by omega
  rw [Mem.getElem_read, Mem.write_of_mem m (by omega) hlen]
  congr 1
  omega

/-- The front of what is stored is read back. -/
theorem Mem.read_write_append (m : Mem) (off : Nat) (bs bs' : List UInt8) :
    (m.write off (bs ++ bs')).read off bs.length = bs := by
  have hself := m.read_write_self off (bs ++ bs')
  rw [List.length_append, Mem.read_add] at hself
  exact (List.append_inj hself (by simp)).1

theorem Mem.write_nil (m : Mem) (off : Nat) : m.write off [] = m := by
  funext i
  simp [Mem.write]

/-- A store right behind another is one store. -/
theorem Mem.write_write_append (m : Mem) (off : Nat) (bs bs' : List UInt8) :
    (m.write off bs).write (off + bs.length) bs' = m.write off (bs ++ bs') := by
  funext i
  rcases Nat.lt_or_ge i off with hlt | hle
  · rw [Mem.write_of_lt _ _ (by omega), Mem.write_of_lt _ _ hlt, Mem.write_of_lt _ _ hlt]
  · rcases Nat.lt_or_ge i (off + bs.length) with hin | hout
    · rw [Mem.write_of_lt _ _ hin]
      simp only [Mem.write, if_pos hle]
      rw [List.getElem?_append_left (by omega)]
    · rw [Mem.write, if_pos hout, Mem.write_of_ge m hout, Mem.write, if_pos hle,
        List.getElem?_append_right (by omega), Nat.sub_add_eq]

/-- A store over another. -/
theorem Mem.write_write_over (m : Mem) (off : Nat) {bs bs' : List UInt8}
    (h : bs.length ≤ bs'.length) : (m.write off bs).write off bs' = m.write off bs' := by
  funext i
  by_cases hin : off ≤ i ∧ i - off < bs'.length
  · rw [Mem.write_of_mem _ hin.1 hin.2, Mem.write_of_mem _ hin.1 hin.2]
  · rw [Mem.write_of_notMem _ (by omega), Mem.write_of_notMem _ (by omega),
      Mem.write_of_notMem _ (by omega)]

theorem Mem.read_write_disjoint (m : Mem) {off off' n : Nat} {bs : List UInt8}
    (h : off' + n ≤ off ∨ off + bs.length ≤ off') :
    (m.write off bs).read off' n = m.read off' n :=
  Mem.read_congr fun i h₁ h₂ => m.write_of_notMem (by omega)

/-- A store of one octet behind a range makes the range longer. -/
theorem Mem.read_write_snoc (m : Mem) (off n : Nat) (b : UInt8) :
    (m.write (off + n) [b]).read off (n + 1) = m.read off n ++ [b] := by
  have hlast : (m.write (off + n) [b]).read (off + n) 1 = [b] := m.read_write_self (off + n) [b]
  rw [Mem.read_add, hlast, Mem.read_write_disjoint _ (.inl (Nat.le_refl _))]

/-- A range that is one octet longer. -/
theorem Mem.read_succ (m : Mem) (off n : Nat) :
    m.read off (n + 1) = m.read off n ++ [m (off + n)] := Mem.read_add m off n 1

/-! ## Strings -/

/-- The string that begins some octets, up to the zero that ends it. -/
def cString (bs : List UInt8) : List UInt8 := bs.takeWhile (· ≠ 0)

/-- Comparing with a text that has no zero compares the string. -/
theorem Mem.read_eq_text_iff {m : Mem} {off : Nat} {str text : List UInt8}
    (h : m.read off (str.length + 1) = str ++ [0]) (htext : ∀ c ∈ text, c ≠ 0) :
    m.read off (text.length + 1) = text ++ [0] ↔ cString str = text := by
  induction str generalizing off text with
  | nil =>
      injection h with hzero
      cases text with
      | nil => exact iff_of_true (by rw [Mem.read_cons, hzero]; rfl) rfl
      | cons c text =>
          refine iff_of_false (fun heq => ?_) nofun
          rw [Mem.read_cons, hzero] at heq
          exact htext c (.head text) (List.cons.inj heq).1.symm
  | cons a str ih =>
      rw [List.length_cons, Mem.read_cons] at h
      injection h with ha hstr
      by_cases hzero : a = 0
      · have hnil : cString (a :: str) = [] := List.takeWhile_cons_of_neg (by simpa using hzero)
        rw [hnil]
        cases text with
        | nil => exact iff_of_true (by rw [Mem.read_cons, ha, hzero]; rfl) rfl
        | cons c text =>
            refine iff_of_false (fun heq => ?_) nofun
            rw [Mem.read_cons, ha, hzero] at heq
            exact htext c (.head text) (List.cons.inj heq).1.symm
      · have hcons : cString (a :: str) = a :: cString str :=
          List.takeWhile_cons_of_pos (by simpa using hzero)
        rw [hcons]
        cases text with
        | nil =>
            refine iff_of_false (fun heq => ?_) nofun
            rw [Mem.read_cons, ha] at heq
            exact hzero (List.cons.inj heq).1
        | cons c text =>
            rw [List.length_cons, Mem.read_cons, ha, List.cons_append, List.cons.injEq,
              List.cons.injEq, ih hstr fun c hc => htext c (.tail _ hc)]

/-! ## Words -/

@[simp] theorem length_wordBytes (w : UInt32) : (wordBytes w).length = 4 := rfl

/-- A word depends on its four octets only. -/
theorem Mem.word_congr {m m' : Mem} {off : Nat} (h : ∀ i < 4, m (off + i) = m' (off + i)) :
    m.word off = m'.word off := by
  have h₀ := h 0 (by omega)
  simp only [Nat.add_zero] at h₀
  simp only [Mem.word, h₀, h 1 (by omega), h 2 (by omega), h 3 (by omega)]

/-- The word whose octets a range reads. -/
theorem Mem.word_of_read (m : Mem) {off : Nat} {w : UInt32} (h : m.read off 4 = wordBytes w) :
    m.word off = w := by
  simp only [Mem.read, List.range', List.map_cons, List.map_nil, wordBytes, List.cons.injEq,
    and_true] at h
  obtain ⟨h₀, h₁, h₂, h₃⟩ := h
  have hw := w.toNat_lt
  apply UInt32.toNat_inj.mp
  simp only [Mem.word, h₀, h₁, h₂, h₃, UInt32.toNat_ofNat', UInt8.toNat_ofNat']
  omega

/-- The octets of the word a memory holds. -/
theorem Mem.wordBytes_word (m : Mem) (off : Nat) : wordBytes (m.word off) = m.read off 4 := by
  have h₀ := (m off).toNat_lt
  have h₁ := (m (off + 1)).toNat_lt
  have h₂ := (m (off + 2)).toNat_lt
  have h₃ := (m (off + 3)).toNat_lt
  simp only [wordBytes, Mem.word, Mem.read, List.range', List.map_cons, List.map_nil,
    List.cons.injEq, and_true, UInt32.toNat_ofNat', ← UInt8.toNat_inj, UInt8.toNat_ofNat',
    Nat.add_assoc, Nat.reduceAdd]
  refine ⟨?_, ?_, ?_, ?_⟩ <;> omega

theorem Mem.word_write_wordBytes (m : Mem) (off : Nat) (w : UInt32) :
    (m.write off (wordBytes w)).word off = w :=
  Mem.word_of_read _ (m.read_write_self off (wordBytes w))

theorem wordBytes_injective : Function.Injective wordBytes := by
  intro w w' h
  rw [← Mem.word_write_wordBytes Mem.zero 0 w, h, Mem.word_write_wordBytes]

/-- A range that holds the octets of some words, one after the other, holds the
words. -/
theorem Mem.word_of_read_flatMap {m : Mem} {off k : Nat} {ws : List UInt32}
    (h : m.read off (4 * ws.length) = ws.flatMap wordBytes) (hk : k < ws.length) :
    m.word (off + 4 * k) = ws[k] := by
  induction ws generalizing off k with
  | nil => exact absurd hk (Nat.not_lt_zero k)
  | cons w ws ih =>
      have hlen : 4 * (w :: ws).length = 4 + 4 * ws.length := by
        rw [List.length_cons]
        omega
      rw [hlen, Mem.read_add, List.flatMap_cons] at h
      obtain ⟨hfirst, hrest⟩ := List.append_inj h (by simp)
      cases k with
      | zero => exact m.word_of_read hfirst
      | succ k =>
          have hword := ih hrest (Nat.lt_of_succ_lt_succ hk)
          rw [List.getElem_cons_succ, ← hword]
          congr 1
          omega

@[simp] theorem length_halfBytes (w : UInt16) : (halfBytes w).length = 2 := rfl

/-- A 16-bit word depends on its two octets only. -/
theorem Mem.half_congr {m m' : Mem} {off : Nat} (h₀ : m off = m' off)
    (h₁ : m (off + 1) = m' (off + 1)) : m.half off = m'.half off := by
  rw [Mem.half, Mem.half, h₀, h₁]

theorem Mem.half_write_halfBytes (m : Mem) (off : Nat) (w : UInt16) :
    (m.write off (halfBytes w)).half off = w := by
  have h : (m.write off (halfBytes w)).read off 2 = halfBytes w := m.read_write_self off _
  simp only [Mem.read, List.range', List.map_cons, List.map_nil, halfBytes, List.cons.injEq,
    and_true] at h
  obtain ⟨h₀, h₁⟩ := h
  have hw := w.toNat_lt
  apply UInt16.toNat_inj.mp
  simp only [Mem.half, halfBytes, h₀, h₁, UInt16.toNat_ofNat', UInt8.toNat_ofNat']
  omega

theorem Mem.half_write_disjoint (m : Mem) {off off' : Nat} {bs : List UInt8}
    (h : off' + 2 ≤ off ∨ off + bs.length ≤ off') : (m.write off bs).half off' = m.half off' :=
  Mem.half_congr (m.write_of_notMem (by omega)) (m.write_of_notMem (by omega))

theorem Mem.word_write_disjoint (m : Mem) {off off' : Nat} {bs : List UInt8}
    (h : off' + 4 ≤ off ∨ off + bs.length ≤ off') :
    (m.write off bs).word off' = m.word off' :=
  Mem.word_congr fun i hi => m.write_of_notMem (by omega)

/-- The memory after words are stored one after the other, each at its offset. -/
def Mem.writeWords (m : Mem) : List (Nat × UInt32) → Mem
  | [] => m
  | (off, w) :: fields => (m.write off (wordBytes w)).writeWords fields

/-- A word that none of the others overlaps is left alone. -/
theorem Mem.word_writeWords_disjoint (m : Mem) {off : Nat} {fields : List (Nat × UInt32)}
    (h : ∀ f ∈ fields, off + 4 ≤ f.1 ∨ f.1 + 4 ≤ off) :
    (m.writeWords fields).word off = m.word off := by
  induction fields generalizing m with
  | nil => rfl
  | cons f fields ih =>
      rw [Mem.writeWords, ih _ fun f' hf' => h f' (.tail f hf')]
      exact m.word_write_disjoint (h f (.head fields))

/-- A word is what was stored last there. -/
theorem Mem.word_writeWords_cons (m : Mem) {off : Nat} {w : UInt32} {fields : List (Nat × UInt32)}
    (h : ∀ f ∈ fields, off + 4 ≤ f.1 ∨ f.1 + 4 ≤ off) :
    (m.writeWords ((off, w) :: fields)).word off = w := by
  rw [Mem.writeWords, Mem.word_writeWords_disjoint _ h, Mem.word_write_wordBytes]

/-- What lies behind all the words is left alone. -/
theorem Mem.writeWords_of_ge (m : Mem) {i : Nat} {fields : List (Nat × UInt32)}
    (h : ∀ f ∈ fields, f.1 + 4 ≤ i) : m.writeWords fields i = m i := by
  induction fields generalizing m with
  | nil => rfl
  | cons f fields ih =>
      rw [Mem.writeWords, ih _ fun f' hf' => h f' (.tail f hf')]
      exact m.write_of_ge (h f (.head fields))

/-! ## Agreement -/

/-- The memories agree on the first `n` octets. -/
def AgreeBelow (n : Nat) (m m' : Mem) : Prop := ∀ i < n, m i = m' i

variable {m m' : Mem} {n : Nat}

theorem AgreeBelow.read (h : AgreeBelow n m m') {off k : Nat} (hk : off + k ≤ n) :
    m.read off k = m'.read off k :=
  Mem.read_congr fun i _ hi => h i (by omega)

theorem AgreeBelow.word (h : AgreeBelow n m m') {off : Nat} (hk : off + 4 ≤ n) :
    m.word off = m'.word off :=
  Mem.word_congr fun i hi => h (off + i) (by omega)

/-- The same store keeps agreement. -/
theorem AgreeBelow.write (h : AgreeBelow n m m') (off : Nat) (bs : List UInt8) :
    AgreeBelow n (m.write off bs) (m'.write off bs) := by
  intro i hi
  unfold Mem.write
  rw [h i hi]

/-- A range that is stored at the front agrees with where it was read. -/
theorem AgreeBelow.of_read (m m' : Mem) (n : Nat) : AgreeBelow n (m'.write 0 (m.read 0 n)) m := by
  intro i hi
  have hlen : i - 0 < (m.read 0 n).length := by
    rw [Mem.length_read]
    exact hi
  rw [Mem.write_of_mem _ (Nat.zero_le i) hlen, Mem.getElem_read, Nat.zero_add, Nat.sub_zero]

end ByteMem
