import Adhoc.Lwip.Heap

/-!
# The heap under its clients

A client of the heap asks for blocks, stores into those it has, cuts them short and gives them back.
What it has stored in each block it holds is kept beside the heap.  The results say that no order of
calls lets two blocks overlap or one call change another block's data, where a request is placed,
and that the heap comes back whole.
-/

namespace Adhoc

open Blocks ByteMem EventMachine

/-- The heap, and what was stored last in each block a client holds, by the pointer to it. -/
structure HeapClient where
  heap : Heap
  live : Nat → Option (List UInt8)

/-- What a client does.  A block is cut short to at most the size it has. -/
inductive HeapEvent where
  | malloc (size : UInt16)
  | free (p : Nat)
  | trim (p : Nat) (size : UInt16)
  | store (p off : Nat) (bs : List UInt8)

/-- Some octets are replaced. -/
def patch (data : List UInt8) (off : Nat) (bs : List UInt8) : List UInt8 :=
  data.take off ++ bs ++ data.drop (off + bs.length)

/-- The heap and its clients.  A new block holds whatever is in it. -/
def heapClient : Machine HeapClient HeapEvent where
  step s
    | .malloc size => (memMalloc size s.heap).map fun
        | (none, h) => { s with heap := h }
        | (some p, h) =>
            { heap := h, live := Function.update s.live p (some (h.ram.read p size.toNat)) }
    | .free p => (s.live p).map fun _ =>
        { heap := memFree (some p) s.heap, live := Function.update s.live p none }
    | .trim p size => (s.live p).bind fun data =>
        if size.toNat ≤ data.length then
          match memTrim p size s.heap with
          | (none, h) => some { s with heap := h }
          | (some _, h) => some
              { heap := h, live := Function.update s.live p (some (data.take size.toNat)) }
        else none
    | .store p off bs => (s.live p).bind fun data =>
        if off + bs.length ≤ data.length then
          some
            { heap := { s.heap with ram := s.heap.ram.write (p + off) bs }
              live := Function.update s.live p (some (patch data off bs)) }
        else none

/-- After `mem_init`. -/
def HeapClient.start (ram : Mem) : HeapClient := ⟨memInit ram, fun _ => none⟩

/-- The blocks in use are those that clients hold, and each is large enough. -/
structure HeapClient.Holds (s : HeapClient) (bs : List Block) : Prop where
  rep : s.heap.Rep bs
  owned : ∀ p data, s.live p = some data →
    ∃ q n, p = q + sizeofStructMem ∧ (q, n) ∈ usedAt 0 bs ∧ data.length + sizeofStructMem ≤ n
  held : ∀ q n, (q, n) ∈ usedAt 0 bs → ∃ data, s.live (q + sizeofStructMem) = some data
  data : ∀ p data, s.live p = some data → s.heap.ram.read p data.length = data

/-- What clients rely on. -/
structure HeapClient.Safe (s : HeapClient) : Prop where
  returns : ∀ size, (memMalloc size s.heap).isSome
  trims : ∀ p data size, s.live p = some data → size.toNat ≤ data.length →
    (memTrim p size s.heap).1 = some p
  within : ∀ p data, s.live p = some data → 4 ∣ p ∧ p + data.length ≤ memSizeAligned
  data : ∀ p data, s.live p = some data → s.heap.ram.read p data.length = data
  apart : ∀ p data q data', s.live p = some data → s.live q = some data' → p ≠ q →
    p + data.length ≤ q ∨ q + data'.length ≤ p

/-- A request does not wrap around when it is rounded up, or fails. -/
def HeapClient.NoWrap (s : HeapClient) (e : HeapEvent) : Prop :=
  ∀ size, e = .malloc size →
    size.toNat ≤ 65532 ∨ (memMalloc size s.heap).map Prod.fst = some none

/-! ## Stores of clients -/

section Stores

variable {m m' : Mem} {h : Heap} {bs : List Block} {q n : Nat}

/-- The octets of a block behind its header. -/
theorem blockData_of_mem {i : Nat} (h : (q, n) ∈ usedAt 0 bs) (hlo : q + sizeofStructMem ≤ i)
    (hhi : i < q + n) : BlockData bs i := ⟨q, n, h, hlo, hhi⟩

/-- Headers are not data. -/
theorem Heap.Rep.not_blockData {p i : Nat} {b : Block} (hrep : h.Rep bs)
    (hp : (p, b) ∈ placed 0 bs) (hlo : p ≤ i) (hhi : i < p + 5) : ¬ BlockData bs i := by
  rintro ⟨q, n, hq, hqlo, hqhi⟩
  rw [sizeofStructMem_eq] at hqlo
  have hleast := hrep.cut.least_le b (mem_of_placed hp)
  rw [leastBlock_eq] at hleast
  have hplaced := mem_usedAt_iff.mp hq
  by_cases heq : p = q
  · omega
  · have := placed_disjoint hp hplaced heq
    dsimp only at this
    omega

theorem Heap.Rep.not_blockData_end {i : Nat} (hrep : h.Rep bs) (hlo : memSizeAligned ≤ i) :
    ¬ BlockData bs i := by
  rintro ⟨q, n, hq, -, hqhi⟩
  have hin := (usedAt_within hq).2
  have hwhole := hrep.cut.whole_eq
  omega

/-- A store to data leaves the heap as it is. -/
theorem Heap.Rep.store {ram : Mem} (hrep : h.Rep bs)
    (hram : ∀ i, ¬ BlockData bs i → ram i = h.ram i) :
    Heap.Rep { h with ram := ram } bs := by
  refine ⟨⟨?_, hrep.cut.least_le, hrep.cut.whole_eq, ?_⟩, hrep.tidy, hrep.lfree, hrep.stats⟩
  · refine hrep.cut.linked.congr fun ⟨p, b⟩ hp => memAt_congr fun i hlo hhi => hram i ?_
    exact hrep.not_blockData hp hlo hhi
  · rw [← hrep.cut.ramEnd]
    exact congrArg MemHdr.used
      (memAt_congr fun i hlo _ => hram i (hrep.not_blockData_end hlo))

theorem length_patch {data : List UInt8} {off : Nat} {bytes : List UInt8}
    (h : off + bytes.length ≤ data.length) : (patch data off bytes).length = data.length := by
  simp only [patch, List.length_append, List.length_take, List.length_drop]
  omega

/-- A store inside what is read. -/
theorem read_write_patch {p k off : Nat} {bytes : List UInt8} (h : off + bytes.length ≤ k) :
    (m.write (p + off) bytes).read p k = patch (m.read p k) off bytes := by
  obtain ⟨rest, rfl⟩ := Nat.exists_eq_add_of_le h
  have hfront : (m.write (p + off) bytes).read p off = m.read p off :=
    m.read_write_disjoint (.inl (Nat.le_refl _))
  have hback : (m.write (p + off) bytes).read (p + (off + bytes.length)) rest =
      m.read (p + (off + bytes.length)) rest := m.read_write_disjoint (.inr (by omega))
  have htake : (m.read p (off + bytes.length + rest)).take off = m.read p off := by
    rw [Nat.add_assoc, Mem.read_add, List.take_left' (Mem.length_read ..)]
  have hdrop : (m.read p (off + bytes.length + rest)).drop (off + bytes.length) =
      m.read (p + (off + bytes.length)) rest := by
    rw [Mem.read_add, List.drop_left' (Mem.length_read ..)]
  rw [patch, htake, hdrop, Mem.read_add, hback, Mem.read_add, hfront, Mem.read_write_self]

end Stores

/-! ## What the calls keep -/

section Calls

variable {s : HeapClient} {bs bs' pre post : List Block} {b : Block} {p q n : Nat}
  {data : List UInt8} {h' : Heap}

/-- What a block in use is like. -/
theorem Heap.Rep.usedAt {h : Heap} (hrep : h.Rep bs) (hq : (q, n) ∈ usedAt 0 bs) :
    ∃ pre post, bs = pre ++ ⟨n, true⟩ :: post ∧ q = whole pre ∧ 4 ∣ q ∧ 4 ∣ n ∧ leastBlock ≤ n ∧
      q + n ≤ memSizeAligned := by
  obtain ⟨pre, post, rfl, hpos⟩ := exists_split (mem_usedAt_iff.mp hq)
  rw [Nat.zero_add] at hpos
  have hmem : ⟨n, true⟩ ∈ pre ++ ⟨n, true⟩ :: post := List.mem_append_right _ (.head _)
  have hin := (usedAt_within hq).2
  rw [hrep.cut.whole_eq, Nat.zero_add] at hin
  exact ⟨pre, post, rfl, hpos, hpos ▸ dvd_whole fun b hb =>
    hrep.tidy.dvd b (List.mem_append_left _ hb), hrep.tidy.dvd _ hmem, hrep.tidy.least_le _ hmem,
    hin⟩

/-- A block of a client is in use. -/
theorem HeapClient.Holds.exists_split (hold : s.Holds bs) (hp : s.live p = some data) :
    ∃ pre n post, bs = pre ++ ⟨n, true⟩ :: post ∧ p = whole pre + sizeofStructMem ∧
      data.length + sizeofStructMem ≤ n ∧ 4 ∣ n := by
  obtain ⟨q, n, rfl, hq, hlen⟩ := hold.owned p data hp
  obtain ⟨pre, post, rfl, rfl, -, hdvd, -, -⟩ := hold.rep.usedAt hq
  exact ⟨pre, n, post, rfl, rfl, hlen, hdvd⟩

/-- The block at one place is changed, and the others stay as they are. -/
theorem HeapClient.Holds.update (hold : s.Holds bs) (hrep : h'.Rep bs') {pos : Nat}
    {live : Option (List UInt8)}
    (hother : ∀ q n, q ≠ pos → ((q, n) ∈ usedAt 0 bs' ↔ (q, n) ∈ usedAt 0 bs))
    (hram : ∀ q n i, q ≠ pos → (q, n) ∈ usedAt 0 bs → q + sizeofStructMem ≤ i → i < q + n →
      h'.ram i = s.heap.ram i)
    (hnone : live = none → ∀ n, (pos, n) ∉ usedAt 0 bs')
    (hsome : ∀ data, live = some data → ∃ n, (pos, n) ∈ usedAt 0 bs' ∧
      data.length + sizeofStructMem ≤ n ∧
      h'.ram.read (pos + sizeofStructMem) data.length = data) :
    HeapClient.Holds ⟨h', Function.update s.live (pos + sizeofStructMem) live⟩ bs' where
  rep := hrep
  owned p data hp := by
    dsimp only at hp
    by_cases heq : p = pos + sizeofStructMem
    · subst heq
      rw [Function.update_self] at hp
      obtain ⟨n, hmem, hlen, -⟩ := hsome data hp
      exact ⟨pos, n, rfl, hmem, hlen⟩
    · rw [Function.update_of_ne heq] at hp
      obtain ⟨q, n, rfl, hq, hlen⟩ := hold.owned p data hp
      exact ⟨q, n, rfl, (hother q n fun h => heq (h ▸ rfl)).mpr hq, hlen⟩
  held q n hq := by
    dsimp only
    by_cases heq : q = pos
    · subst heq
      rw [Function.update_self]
      cases live with
      | none => exact absurd hq (hnone rfl n)
      | some data => exact ⟨data, rfl⟩
    · rw [Function.update_of_ne fun h => heq (Nat.add_right_cancel h)]
      exact hold.held q n ((hother q n heq).mp hq)
  data p data hp := by
    dsimp only at hp ⊢
    by_cases heq : p = pos + sizeofStructMem
    · subst heq
      rw [Function.update_self] at hp
      obtain ⟨-, -, -, hread⟩ := hsome data hp
      exact hread
    · rw [Function.update_of_ne heq] at hp
      obtain ⟨q, n, rfl, hq, hlen⟩ := hold.owned p data hp
      refine (Mem.read_congr fun i hlo hhi => ?_).trans (hold.data _ data hp)
      exact hram q n i (fun h => heq (h ▸ rfl)) hq hlo (by omega)

theorem HeapClient.Holds.malloc {size : UInt16} (hold : s.Holds bs) (hsize : size.toNat ≤ 65532)
    (hcall : memMalloc size s.heap = some (some p, h')) :
    ∃ bs', HeapClient.Holds
      ⟨h', Function.update s.live p (some (h'.ram.read p size.toNat))⟩ bs' := by
  have hne : size ≠ 0 := by
    rintro rfl
    cases Option.some.inj hcall
  cases hfit : firstFit (dataSize size + sizeofStructMem) bs with
  | none =>
      obtain ⟨h'', hnone, -⟩ := memMalloc_none hold.rep (.inr hfit)
      cases hcall.symm.trans hnone
  | some r =>
      obtain ⟨pre, b, post⟩ := r
      obtain ⟨h'', hsome, hrep, hram⟩ := memMalloc_some hold.rep hne hfit
      obtain ⟨rfl, rfl⟩ : whole pre + sizeofStructMem = p ∧ h'' = h' := by
        simpa using hsome.symm.trans hcall
      obtain ⟨rfl, hfits, -⟩ := firstFit_eq_some_iff.mp hfit
      have hdata := (dataSize_spec size).2.2.2 hsize
      have hnew : usedAt 0 (pre ++ carve leastBlock (dataSize size + sizeofStructMem) b ++ post) =
          usedAt 0 pre ++ [(whole pre, grant leastBlock (dataSize size + sizeofStructMem) b)] ++
            usedAt (whole pre + b.size) post := by
        rw [usedAt_append, usedAt_append, usedAt_carve, whole_append, whole_carve hfits.2]
        simp only [Nat.zero_add]
      have hold' := @usedAt_append 0 pre (b :: post)
      rw [usedAt, if_neg (by simp [hfits.1]), Nat.zero_add] at hold'
      refine ⟨_, hold.update hrep (fun q n hq => ?_) (fun q n i _ hq hlo hhi =>
        hram i (blockData_of_mem hq hlo hhi)) (fun heq => absurd heq (Option.some_ne_none _)) ?_⟩
      · rw [hnew, hold']
        simp [hq]
      · intro data heq
        obtain rfl := Option.some.inj heq
        refine ⟨_, hnew ▸ List.mem_append_left _ (List.mem_append_right _ (.head _)), ?_, ?_⟩
        · rw [Mem.length_read]
          have hle := @le_grant leastBlock _ _ hfits.2
          omega
        · rw [Mem.length_read]

theorem HeapClient.Holds.free (hold : s.Holds bs) (hp : s.live p = some data) :
    ∃ bs', HeapClient.Holds
      ⟨memFree (some p) s.heap, Function.update s.live p none⟩ bs' := by
  obtain ⟨pre, n, post, rfl, rfl, -⟩ := hold.exists_split hp
  obtain ⟨hrep, hram⟩ := memFree_spec hold.rep rfl
  have hleast := leastBlock_eq
  have hmin := hold.rep.cut.bound.1
  have hnew := @usedAt_release n pre post 0
  rw [Nat.zero_add] at hnew
  have hold' := @usedAt_append 0 pre (⟨n, true⟩ :: post)
  rw [usedAt, if_pos rfl, Nat.zero_add] at hold'
  have hother (q m : Nat) (hq : q ≠ whole pre) :
      (q, m) ∈ usedAt 0 (release pre n post) ↔ (q, m) ∈ usedAt 0 (pre ++ ⟨n, true⟩ :: post) := by
    rw [hnew, hold']
    simp [hq]
  refine ⟨_, hold.update hrep hother (fun q m i hq hmem hlo hhi =>
    hram i (blockData_of_mem ((hother q m hq).mpr hmem) hlo hhi)) (fun _ m hmem => ?_) fun _ heq =>
      absurd heq.symm (Option.some_ne_none _)⟩
  have hsize := hrep.usedAt hmem
  rw [hnew] at hmem
  dsimp only at hmin
  rcases List.mem_append.mp hmem with hq | hq
  · have hin := usedAt_within hq
    obtain ⟨-, -, -, -, -, -, hpos, -⟩ := hsize
    omega
  · have hin := usedAt_within hq
    omega

theorem HeapClient.Holds.trim {size : UInt16} (hold : s.Holds bs) (hp : s.live p = some data)
    (hsize : size.toNat ≤ data.length) :
    ∃ h', memTrim p size s.heap = (some p, h') ∧
      ∃ bs', HeapClient.Holds ⟨h', Function.update s.live p (some (data.take size.toNat))⟩ bs' := by
  obtain ⟨pre, n, post, rfl, rfl, hlen, hdvd⟩ := hold.exists_split hp
  have hbound := hold.rep.cut.bound
  have hmax := memSizeAligned_eq
  have hsz := sizeofStructMem_eq
  have hleast := leastBlock_eq
  have hmin := minSizeAligned_eq
  have hdata : dataSize size + sizeofStructMem ≤ n := by
    have hle := hbound.1
    dsimp only at hbound
    have halign : lwipMemAlignSize size.toNat = (size.toNat + 3) / 4 * 4 := rfl
    unfold dataSize
    dsimp only at hle ⊢
    split <;> omega
  have hfits := (dataSize_spec size).2.2.2 (by dsimp only at hbound; omega)
  obtain ⟨h', hcall, hrep, hram⟩ := @memTrim_spec _ _ _ _ size hold.rep rfl hdata
  obtain ⟨m, hlo, hhi, hshrink⟩ :=
    @usedAt_shrink leastBlock _ (⟨n, true⟩) post (whole pre) rfl hdata
  have hnew := @usedAt_append 0 pre
    (shrink leastBlock (dataSize size + sizeofStructMem) ⟨n, true⟩ post)
  rw [Nat.zero_add, hshrink] at hnew
  have hold' := @usedAt_append 0 pre (⟨n, true⟩ :: post)
  rw [usedAt, if_pos rfl, Nat.zero_add] at hold'
  have hother (q m : Nat) (hq : q ≠ whole pre) :
      (q, m) ∈ usedAt 0
          (pre ++ shrink leastBlock (dataSize size + sizeofStructMem) ⟨n, true⟩ post) ↔
        (q, m) ∈ usedAt 0 (pre ++ ⟨n, true⟩ :: post) := by
    rw [hnew, hold']
    simp [hq]
  have hmem : (whole pre, m) ∈
      usedAt 0 (pre ++ shrink leastBlock (dataSize size + sizeofStructMem) ⟨n, true⟩ post) := by
    rw [hnew]
    exact List.mem_append_right _ (.head _)
  refine ⟨h', hcall, _, hold.update hrep hother (fun q k i hq hin hlo hhi =>
    hram i (blockData_of_mem ((hother q k hq).mpr hin) hlo hhi))
    (fun heq => absurd heq (Option.some_ne_none _)) ?_⟩
  intro _ heq
  obtain rfl := Option.some.inj heq
  have hread := hold.data _ data hp
  obtain ⟨rest, hrest⟩ := Nat.exists_eq_add_of_le hsize
  refine ⟨m, hmem, by rw [List.length_take]; omega, ?_⟩
  rw [List.length_take, Nat.min_eq_left hsize, ← hread, hrest, Mem.read_add,
    List.take_left' (Mem.length_read ..)]
  exact Mem.read_congr fun i hi hi' => hram i (blockData_of_mem hmem hi (by omega))

theorem HeapClient.Holds.store {off : Nat} {bytes : List UInt8} (hold : s.Holds bs)
    (hp : s.live p = some data) (hlen : off + bytes.length ≤ data.length) :
    HeapClient.Holds ⟨{ s.heap with ram := s.heap.ram.write (p + off) bytes },
      Function.update s.live p (some (patch data off bytes))⟩ bs := by
  obtain ⟨q, n, rfl, hq, hn⟩ := hold.owned p data hp
  have hout (i : Nat) (hi : ¬ (q + sizeofStructMem ≤ i ∧ i < q + n)) :
      s.heap.ram.write (q + sizeofStructMem + off) bytes i = s.heap.ram i :=
    Mem.write_of_notMem _ (by omega)
  refine hold.update (hold.rep.store fun i hi => hout i fun h => hi (blockData_of_mem hq h.1 h.2))
    (fun _ _ _ => .rfl) (fun q' n' i hne hq' hlo hhi => hout i fun h => ?_) nofun ?_
  · have := placed_disjoint (mem_usedAt_iff.mp hq) (mem_usedAt_iff.mp hq') hne.symm
    dsimp only at this
    omega
  · intro _ heq
    obtain rfl := Option.some.inj heq
    refine ⟨n, hq, by rwa [length_patch hlen], ?_⟩
    rw [length_patch hlen]
    dsimp only
    rw [read_write_patch hlen, hold.data _ data hp]

end Calls

/-! ## Runs -/

section Runs

variable {s t : HeapClient} {bs : List Block} {es : List HeapEvent} {ram : Mem}

/-- `mem_init` makes the heap one free block. -/
theorem memInit_rep (ram : Mem) : (memInit ram).Rep [⟨memSizeAligned, false⟩] := by
  have hsize := memSizeAligned_eq
  have hleast := leastBlock_eq
  have hfront : memAt (memInit ram).ram 0 = ⟨memSizeAligned, 0, false⟩ := by
    unfold memInit
    dsimp only
    rw [memAt_setPrev_apart (by omega), memAt_setNext_apart (by omega),
      memAt_setUsed_apart (by omega), memAt_setUsed, memAt_setPrev (by decide),
      memAt_setNext (by omega)]
  have hend : (memAt (memInit ram).ram memSizeAligned).used = true := by
    unfold memInit
    dsimp only
    rw [memAt_setPrev (by omega), memAt_setNext (by omega), memAt_setUsed]
  refine ⟨⟨⟨?_, trivial⟩, ?_, rfl, hend⟩, ⟨?_, ?_, .singleton _⟩, rfl, rfl⟩
  · rw [hfront, Nat.zero_add]
  · simp only [List.forall_mem_singleton]
    omega
  · simp only [List.forall_mem_singleton]
    omega
  · simp only [List.forall_mem_singleton]
    omega

theorem HeapClient.holds_start (ram : Mem) :
    (HeapClient.start ram).Holds [⟨memSizeAligned, false⟩] :=
  ⟨memInit_rep ram, nofun, nofun, nofun⟩

theorem HeapClient.Holds.step {e : HeapEvent} (hold : s.Holds bs) (hwrap : s.NoWrap e)
    (hstep : heapClient.step s e = some t) : ∃ bs', t.Holds bs' := by
  cases e with
  | malloc size =>
      obtain ⟨⟨r, h'⟩, hcall, heq⟩ := Option.map_eq_some_iff.mp hstep
      cases r with
      | none =>
          subst heq
          by_cases hnone : size = 0 ∨ firstFit (dataSize size + sizeofStructMem) bs = none
          · obtain ⟨h'', hcall', hram, hrep⟩ := memMalloc_none hold.rep hnone
            obtain rfl : h'' = h' := by simpa using hcall'.symm.trans hcall
            refine ⟨bs, hrep, hold.owned, hold.held, fun p data hp => ?_⟩
            rw [← hold.data p data hp, Mem.length_read]
            exact Mem.read_congr fun i _ _ => congrFun hram i
          · obtain ⟨hne, hfit⟩ := not_or.mp hnone
            obtain ⟨⟨pre, b, post⟩, hfit⟩ := Option.ne_none_iff_exists'.mp hfit
            obtain ⟨h'', hsome, -⟩ := memMalloc_some hold.rep hne hfit
            exact nomatch hcall.symm.trans hsome
      | some p =>
          subst heq
          rcases hwrap size rfl with hsize | hfail
          · exact hold.malloc hsize hcall
          · rw [hcall] at hfail
            exact nomatch Option.some.inj hfail
  | free p =>
      obtain ⟨data, hp, rfl⟩ := Option.map_eq_some_iff.mp hstep
      exact hold.free hp
  | trim p size =>
      obtain ⟨data, hp, hstep⟩ := Option.bind_eq_some_iff.mp hstep
      split at hstep
      next hsize =>
        obtain ⟨h', hcall, bs', hnew⟩ := hold.trim hp hsize
        rw [hcall] at hstep
        obtain rfl := Option.some.inj hstep
        exact ⟨bs', hnew⟩
      next => exact nomatch hstep
  | store p off bytes =>
      obtain ⟨data, hp, hstep⟩ := Option.bind_eq_some_iff.mp hstep
      split at hstep
      next hlen =>
        obtain rfl := Option.some.inj hstep
        exact ⟨bs, hold.store hp hlen⟩
      next => exact nomatch hstep

theorem HeapClient.Holds.safe (hold : s.Holds bs) : s.Safe where
  returns size := by
    by_cases hnone : size = 0 ∨ firstFit (dataSize size + sizeofStructMem) bs = none
    · obtain ⟨h', hcall, -⟩ := memMalloc_none hold.rep hnone
      exact hcall ▸ rfl
    · obtain ⟨hne, hfit⟩ := not_or.mp hnone
      obtain ⟨⟨pre, b, post⟩, hfit⟩ := Option.ne_none_iff_exists'.mp hfit
      obtain ⟨h', hcall, -⟩ := memMalloc_some hold.rep hne hfit
      exact hcall ▸ rfl
  trims p data size hp hsize := by
    obtain ⟨h', hcall, -⟩ := hold.trim hp hsize
    rw [hcall]
  within p data hp := by
    obtain ⟨q, n, rfl, hq, hlen⟩ := hold.owned p data hp
    obtain ⟨-, -, -, -, hdvd, -, -, hle⟩ := hold.rep.usedAt hq
    exact ⟨Nat.dvd_add hdvd (by decide), by omega⟩
  data := hold.data
  apart p data q data' hp hq hne := by
    obtain ⟨q₁, n₁, rfl, hmem₁, hlen₁⟩ := hold.owned p data hp
    obtain ⟨q₂, n₂, rfl, hmem₂, hlen₂⟩ := hold.owned q data' hq
    have := placed_disjoint (mem_usedAt_iff.mp hmem₁) (mem_usedAt_iff.mp hmem₂)
      (fun h => hne (h ▸ rfl))
    dsimp only at this
    omega

/-- Clients are safe from each other throughout a run exactly when no request in it that succeeds
is so large that it wraps around. -/
theorem heapClient_safe_iff (hrun : heapClient.run (.start ram) es = some t) :
    (∀ u, heapClient.Visits (.start ram) es u → u.Safe) ↔
      heapClient.Meets HeapClient.NoWrap (.start ram) es := by
  constructor
  · refine Machine.meets_of_visits (fun _ _ _ hstep hsafe => ?_) hrun
    rintro size rfl
    by_contra hwrap
    obtain ⟨hlarge, hsome⟩ := not_or.mp hwrap
    obtain ⟨⟨r, h'⟩, hcall, rfl⟩ := Option.map_eq_some_iff.mp hstep
    cases r with
    | none => exact hsome (hcall ▸ rfl)
    | some p =>
        have hwithin := (hsafe.within p _ (Function.update_self ..)).2
        rw [Mem.length_read, memSizeAligned_eq] at hwithin
        omega
  · intro hmeets u hvisits
    obtain ⟨bs, hold⟩ := Machine.Visits.invariant (I := fun u => ∃ bs, HeapClient.Holds u bs)
      (fun _ _ _ hwrap hstep ⟨_, hold⟩ => hold.step hwrap hstep) hmeets hvisits
      ⟨_, HeapClient.holds_start ram⟩
    exact hold.safe

/-- Two blocks, a store into the first, and the first given back. -/
def sampleCalls : List HeapEvent := [.malloc 100, .malloc 20, .store 8 4 [1, 2], .free 8]

theorem sampleCalls_runs : ∃ t, heapClient.run (.start Mem.zero) sampleCalls = some t :=
  Option.isSome_iff_exists.mp rfl

theorem sampleCalls_meets :
    heapClient.Meets HeapClient.NoWrap (.start Mem.zero) sampleCalls :=
  Machine.meets_of_forall fun e he t size heq => .inl (by
    subst heq
    simp only [sampleCalls, List.mem_cons, HeapEvent.malloc.injEq, reduceCtorEq, List.not_mem_nil,
      or_false] at he
    rcases he with rfl | rfl <;> decide)

theorem heapClient_safe_iff_sample : ∃ t, heapClient.run (.start Mem.zero) sampleCalls = some t ∧
    ∀ u, heapClient.Visits (.start Mem.zero) sampleCalls u → u.Safe := by
  obtain ⟨t, hrun⟩ := sampleCalls_runs
  exact ⟨t, hrun, (heapClient_safe_iff hrun).mpr sampleCalls_meets⟩

/-- The state at the end of a run. -/
theorem exists_holds (hrun : heapClient.run (.start ram) es = some t)
    (hmeets : heapClient.Meets HeapClient.NoWrap (.start ram) es) : ∃ bs, t.Holds bs :=
  Machine.invariant (I := fun u => ∃ bs, HeapClient.Holds u bs)
    (fun _ _ _ hwrap hstep ⟨_, hold⟩ => hold.step hwrap hstep) hmeets hrun
    ⟨_, HeapClient.holds_start ram⟩

/-- A request is placed in the lowest gap between the blocks in use that is large enough for it and
its header, and it fails only where there is none. -/
theorem memMalloc_lowest_gap (hrun : heapClient.run (.start ram) es = some t)
    (hmeets : heapClient.Meets HeapClient.NoWrap (.start ram) es) :
    ∃ bs, t.Holds bs ∧ ∀ size : UInt16, size ≠ 0 → ∃ r h', memMalloc size t.heap = some (r, h') ∧
      (r = none ↔ ∀ i, ¬ Gap bs i (dataSize size + sizeofStructMem)) ∧
      ∀ p, r = some p → ∃ i, p = i + sizeofStructMem ∧
        IsLeast {i | Gap bs i (dataSize size + sizeofStructMem)} i := by
  obtain ⟨bs, hold⟩ := exists_holds hrun hmeets
  refine ⟨bs, hold, fun size hne => ?_⟩
  have hneed : 0 < dataSize size + sizeofStructMem := by
    rw [sizeofStructMem_eq]
    omega
  have hpos : ∀ b ∈ bs, 0 < b.size := fun b hb => by
    have := hold.rep.cut.least_le b hb
    rw [leastBlock_eq] at this
    omega
  cases hfit : firstFit (dataSize size + sizeofStructMem) bs with
  | none =>
      obtain ⟨h', hcall, -⟩ := memMalloc_none hold.rep (.inr hfit)
      exact ⟨none, h', hcall,
        iff_of_true rfl ((hold.rep.tidy.firstFit_eq_none_iff hpos hneed).mp hfit), nofun⟩
  | some r =>
      obtain ⟨pre, b, post⟩ := r
      obtain ⟨h', hcall, -⟩ := memMalloc_some hold.rep hne hfit
      obtain ⟨hgap, hleast⟩ := hold.rep.tidy.firstFit_least hpos hneed hfit
      refine ⟨_, h', hcall, iff_of_false nofun fun hnone => hnone _ hgap, fun p hp => ?_⟩
      obtain rfl := Option.some.inj hp
      exact ⟨whole pre, rfl, hgap, hleast⟩

/-- Half of the block that was given back is used again. -/
theorem memMalloc_lowest_gap_sample :
    ∃ t bs, heapClient.run (.start Mem.zero) sampleCalls = some t ∧ t.Holds bs ∧
      ∃ h', memMalloc 50 t.heap = some (some 8, h') ∧
        IsLeast {i | Gap bs i (dataSize 50 + sizeofStructMem)} 0 := by
  have hptr : ((heapClient.run (.start Mem.zero) sampleCalls).bind
      fun t => (memMalloc 50 t.heap).map Prod.fst) = some (some 8) := rfl
  obtain ⟨t, hrun, hcall⟩ := Option.bind_eq_some_iff.mp hptr
  obtain ⟨bs, hold, hplace⟩ := memMalloc_lowest_gap hrun sampleCalls_meets
  obtain ⟨r, h', hmalloc, -, hlowest⟩ := hplace 50 (by decide)
  rw [hmalloc] at hcall
  obtain rfl : r = some 8 := Option.some.inj hcall
  obtain ⟨i, hi, hleast⟩ := hlowest 8 rfl
  obtain rfl : i = 0 := Nat.add_right_cancel (hi.symm.trans (Nat.zero_add 8).symm)
  exact ⟨t, bs, hrun, hold, h', hmalloc, hleast⟩

/-- Once every block has been given back, the heap is one free block again, as after `mem_init`,
and the statistics count nothing in use. -/
theorem heap_comes_back (hrun : heapClient.run (.start ram) es = some t)
    (hmeets : heapClient.Meets HeapClient.NoWrap (.start ram) es) (hlive : ∀ p, t.live p = none) :
    t.heap.lfree = 0 ∧ memAt t.heap.ram 0 = ⟨memSizeAligned, 0, false⟩ ∧ t.heap.stats.used = 0 ∧
      ∀ size : UInt16, size ≠ 0 → size.toNat + sizeofStructMem ≤ memSizeAligned →
        ∃ h', memMalloc size t.heap = some (some sizeofStructMem, h') := by
  obtain ⟨bs, hold⟩ := exists_holds hrun hmeets
  have hused : usedAt 0 bs = [] := by
    refine List.eq_nil_iff_forall_not_mem.mpr fun ⟨q, n⟩ hq => ?_
    obtain ⟨data, hdata⟩ := hold.held q n hq
    exact nomatch (hlive _).symm.trans hdata
  have hmax := memSizeAligned_eq
  have hwhole := hold.rep.cut.whole_eq
  obtain rfl : bs = [⟨memSizeAligned, false⟩] := by
    rw [← hwhole]
    exact hold.rep.tidy.eq_singleton (used_of_usedAt_nil hused) (by omega)
  refine ⟨hold.rep.lfree, ?_, ?_, fun size hne hsize => ?_⟩
  · rw [hold.rep.cut.linked.1, Nat.zero_add]
  · exact UInt16.toNat_inj.mp hold.rep.stats
  · have hfits : Fits (dataSize size + sizeofStructMem) ⟨memSizeAligned, false⟩ := by
      have halign : lwipMemAlignSize size.toNat = (size.toNat + 3) / 4 * 4 := rfl
      have hmin := minSizeAligned_eq
      refine ⟨rfl, ?_⟩
      rw [sizeofStructMem_eq] at hsize ⊢
      unfold dataSize
      dsimp only
      split <;> omega
    obtain ⟨h', hcall, -⟩ := @memMalloc_some _ _ _ [] _ _ hold.rep hne (if_pos hfits)
    exact ⟨h', by rw [hcall, whole_nil, Nat.zero_add]⟩

theorem heap_comes_back_sample :
    ∃ t, heapClient.run (.start Mem.zero) [.malloc 100, .free 8] = some t ∧ t.heap.lfree = 0 ∧
      t.heap.stats.used = 0 := by
  have hptr : (memMalloc 100 (memInit Mem.zero)).map Prod.fst = some (some 8) := rfl
  obtain ⟨⟨_, h'⟩, hcall, rfl⟩ := Option.map_eq_some_iff.mp hptr
  have hmalloc : heapClient.step (.start Mem.zero) (.malloc 100) =
      some ⟨h', Function.update (fun _ => none) 8 (some (h'.ram.read 8 100))⟩ := by
    simp only [heapClient, HeapClient.start, hcall, Option.map_some]
    rfl
  have hrun := Machine.run_cons.mpr ⟨_, hmalloc, Machine.run_cons (e := .free 8).mpr
    ⟨_, rfl, show heapClient.run _ [] = _ from rfl⟩⟩
  have hlive (p : Nat) : Function.update (Function.update (fun _ => none) 8
      (some (h'.ram.read 8 100))) 8 none p = none := by
    rw [Function.update_idem]
    exact congrFun (Function.update_eq_self 8 fun _ => none) p
  have hmeets : heapClient.Meets HeapClient.NoWrap (.start Mem.zero) [.malloc 100, .free 8] :=
    Machine.meets_of_forall fun e he t size heq => .inl (by
      subst heq
      simp only [List.mem_cons, HeapEvent.malloc.injEq, reduceCtorEq, List.not_mem_nil,
        or_false] at he
      exact he ▸ by decide)
  obtain ⟨hfree, -, hused, -⟩ := heap_comes_back hrun hmeets hlive
  exact ⟨_, hrun, hfree, hused⟩

end Runs

end Adhoc
