import Adhoc.Lib.Blocks
import Adhoc.Lib.Machine
import Adhoc.Lib.Mem
import Adhoc.Lwip.Pbuf

/-!
# The heap of the stack

`mem.c` keeps its heap in `ram`.  A `struct mem` of eight octets stands in front
of every block and has the offsets of the one behind and the one before it.
`lfree` is the lowest free block, where a search begins.  The last `struct mem`,
`ram_end`, is always in use and has no block.

Pointers are offsets from `ram`, so the alignment of the heap is that of an
offset.  `mem_size_t` has 16 bits.  A loop over the blocks has as many rounds of
fuel as the heap has octets, and a call that needs more does not return.
`LWIP_ASSERT` tests nothing in this configuration, and without an operating
system the mutex is nothing.
-/

namespace Adhoc

open Blocks ByteMem EventMachine

/-! ## The heap -/

/-- `MEM_SIZE_ALIGNED`. -/
def memSizeAligned : Nat := lwipMemAlignSize 10000

/-- `SIZEOF_STRUCT_MEM`. -/
def sizeofStructMem : Nat := lwipMemAlignSize 6

/-- `MIN_SIZE_ALIGNED`. -/
def minSizeAligned : Nat := lwipMemAlignSize 12

/-- `struct mem`. -/
structure MemHdr where
  next : Nat
  prev : Nat
  used : Bool

/-- `lwip_stats.mem`, but for `avail`, which is never changed. -/
structure MemStats where
  used : UInt16 := 0
  max : UInt16 := 0
  err : UInt16 := 0
  illegal : UInt16 := 0

/-- The heap. -/
structure Heap where
  ram : Mem
  lfree : Nat
  stats : MemStats := {}

/-- The `struct mem` at an offset. -/
def memAt (m : Mem) (p : Nat) : MemHdr := ⟨(m.half p).toNat, (m.half (p + 2)).toNat, m (p + 4) ≠ 0⟩

/-- A store to `next`. -/
def setNext (p v : Nat) (m : Mem) : Mem := m.write p (halfBytes (.ofNat v))

/-- A store to `prev`. -/
def setPrev (p v : Nat) (m : Mem) : Mem := m.write (p + 2) (halfBytes (.ofNat v))

/-- A store to `used`. -/
def setUsed (p : Nat) (v : Bool) (m : Mem) : Mem := m.write (p + 4) [if v then 1 else 0]

/-- A difference of offsets, as an unsigned word. -/
def u32Sub (a b : Nat) : Nat := if b ≤ a then a - b else a + 4294967296 - b

/-- `MEM_STATS_INC_USED`. -/
def incUsed (y : Nat) (h : Heap) : Heap :=
  let used := h.stats.used + .ofNat y
  { h with stats := { h.stats with
      used := used
      max := if h.stats.max < used then used else h.stats.max } }

/-- `MEM_STATS_DEC_USED`. -/
def decUsed (y : Nat) (h : Heap) : Heap :=
  { h with stats := { h.stats with used := h.stats.used - .ofNat y } }

/-- `mem_init`, over whatever the heap holds. -/
def memInit (ram : Mem) : Heap :=
  let ram := setUsed 0 false (setPrev 0 0 (setNext 0 memSizeAligned ram))
  let ram := setNext memSizeAligned memSizeAligned (setUsed memSizeAligned true ram)
  { ram := setPrev memSizeAligned memSizeAligned ram, lfree := 0 }

/-- The size of the data that is asked for, in `mem_malloc` and `mem_trim`. -/
def dataSize (size : UInt16) : Nat :=
  let size := lwipMemAlignSize size.toNat % 65536
  if size < minSizeAligned then minSizeAligned else size

/-- `mem2` is created behind `mem`, in front of `next`. -/
def createMem2 (ptr ptr2 next : Nat) (m : Mem) : Mem :=
  setNext ptr ptr2 (setPrev ptr2 ptr (setNext ptr2 next (setUsed ptr2 false m)))

/-- `mem2->next->prev` points to `mem2` again, unless that is the end of the heap. -/
def linkBack (ptr2 : Nat) (m : Mem) : Mem :=
  let next := (memAt m ptr2).next
  if next ≠ memSizeAligned then setPrev next ptr2 m else m

/-! ## Allocating -/

/-- The search of `mem_malloc` from an offset on. -/
def scanFree (size : Nat) (m : Mem) : Nat → Nat → Option (Option Nat)
  | 0, _ => none
  | fuel + 1, ptr =>
      if ptr < memSizeAligned - size then
        let mem := memAt m ptr
        if !mem.used ∧ size ≤ u32Sub mem.next (ptr + sizeofStructMem) then some (some ptr)
        else scanFree size m fuel mem.next
      else some none

/-- The loop of `mem_malloc` for the next free block. -/
def nextFree (m : Mem) : Nat → Nat → Option Nat
  | 0, _ => none
  | fuel + 1, cur =>
      if (memAt m cur).used ∧ cur ≠ memSizeAligned then nextFree m fuel (memAt m cur).next
      else some cur

/-- The block that `mem_malloc` has found is taken into use. -/
def takeFree (size ptr : Nat) (h : Heap) : Heap :=
  let mem := memAt h.ram ptr
  if size + sizeofStructMem + minSizeAligned ≤ u32Sub mem.next (ptr + sizeofStructMem) then
    let ptr2 := ptr + sizeofStructMem + size
    let ram := setUsed ptr true (createMem2 ptr ptr2 mem.next h.ram)
    incUsed (size + sizeofStructMem) { h with ram := linkBack ptr2 ram }
  else incUsed (mem.next - ptr) { h with ram := setUsed ptr true h.ram }

/-- `lfree` moves on if its block has been taken. -/
def adjustLfree (ptr : Nat) (h : Heap) : Option Heap :=
  if ptr = h.lfree then
    (nextFree h.ram memSizeAligned h.lfree).map fun cur => { h with lfree := cur }
  else some h

/-- `mem_malloc`. -/
def memMalloc (size : UInt16) (h : Heap) : Option (Option Nat × Heap) :=
  if size = 0 then some (none, h)
  else
    let size := dataSize size
    if size > memSizeAligned then some (none, h)
    else
      (scanFree size h.ram memSizeAligned h.lfree).bind fun
        | none => some (none, { h with stats := { h.stats with err := h.stats.err + 1 } })
        | some ptr =>
            (adjustLfree ptr (takeFree size ptr h)).map fun h => (some (ptr + sizeofStructMem), h)

/-! ## Freeing -/

/-- "plug hole forward" of `plug_holes`. -/
def plugForward (mem : Nat) (h : Heap) : Heap :=
  let nmem := (memAt h.ram mem).next
  if mem ≠ nmem ∧ !(memAt h.ram nmem).used ∧ nmem ≠ memSizeAligned then
    let lfree := if h.lfree = nmem then mem else h.lfree
    let ram := setNext mem (memAt h.ram nmem).next h.ram
    { h with ram := setPrev (memAt ram nmem).next mem ram, lfree := lfree }
  else h

/-- "plug hole backward" of `plug_holes`. -/
def plugBackward (mem : Nat) (h : Heap) : Heap :=
  let pmem := (memAt h.ram mem).prev
  if pmem ≠ mem ∧ !(memAt h.ram pmem).used then
    let lfree := if h.lfree = mem then pmem else h.lfree
    let ram := setNext pmem (memAt h.ram mem).next h.ram
    { h with ram := setPrev (memAt ram mem).next pmem ram, lfree := lfree }
  else h

/-- `plug_holes`. -/
def plugHoles (mem : Nat) (h : Heap) : Heap := plugBackward mem (plugForward mem h)

/-- `mem_free`. -/
def memFree (rmem : Option Nat) (h : Heap) : Heap :=
  match rmem with
  | none => h
  | some rmem =>
      if memSizeAligned ≤ rmem then
        { h with stats := { h.stats with illegal := h.stats.illegal + 1 } }
      else
        let mem := rmem - sizeofStructMem
        let h := { h with ram := setUsed mem false h.ram }
        let h := if mem < h.lfree then { h with lfree := mem } else h
        plugHoles mem (decUsed ((memAt h.ram mem).next - mem) h)

/-! ## Trimming -/

/-- `mem_trim`. -/
def memTrim (rmem : Nat) (newsize : UInt16) (h : Heap) : Option Nat × Heap :=
  let newsize := dataSize newsize
  if newsize > memSizeAligned then (none, h)
  else if memSizeAligned ≤ rmem then
    (some rmem, { h with stats := { h.stats with illegal := h.stats.illegal + 1 } })
  else
    let ptr := rmem - sizeofStructMem
    let mem2 := (memAt h.ram ptr).next
    let size := u32Sub mem2 (ptr + sizeofStructMem) % 65536
    if newsize > size then (none, h)
    else if newsize = size then (some rmem, h)
    else
      let ptr2 := ptr + sizeofStructMem + newsize
      if !(memAt h.ram mem2).used then
        let next := (memAt h.ram mem2).next
        let lfree := if h.lfree = mem2 then ptr2 else h.lfree
        let ram := linkBack ptr2 (createMem2 ptr ptr2 next h.ram)
        (some rmem, decUsed (size - newsize) { h with ram := ram, lfree := lfree })
      else if newsize + sizeofStructMem + minSizeAligned ≤ size then
        let lfree := if ptr2 < h.lfree then ptr2 else h.lfree
        let ram := linkBack ptr2 (createMem2 ptr ptr2 mem2 h.ram)
        (some rmem, decUsed (size - newsize) { h with ram := ram, lfree := lfree })
      else (some rmem, h)

/-! ## Headers -/

section Headers

variable {m : Mem} {p q v i : Nat} {used : Bool}

theorem setNext_apply (h : i < p ∨ p + 2 ≤ i) : setNext p v m i = m i := m.write_of_notMem h

theorem setPrev_apply (h : i < p + 2 ∨ p + 4 ≤ i) : setPrev p v m i = m i := m.write_of_notMem h

theorem setUsed_apply (h : i < p + 4 ∨ p + 5 ≤ i) : setUsed p used m i = m i :=
  m.write_of_notMem h

/-- A header is five octets. -/
theorem memAt_congr {m' : Mem} (h : ∀ i, p ≤ i → i < p + 5 → m i = m' i) :
    memAt m p = memAt m' p := by
  unfold memAt
  rw [Mem.half_congr (h p (by omega) (by omega)) (h (p + 1) (by omega) (by omega)),
    Mem.half_congr (h (p + 2) (by omega) (by omega)) (h (p + 2 + 1) (by omega) (by omega)),
    h (p + 4) (by omega) (by omega)]

theorem memAt_setNext (hv : v < 65536) :
    memAt (setNext p v m) p = { memAt m p with next := v } := by
  have hnext : (setNext p v m).half p = .ofNat v := m.half_write_halfBytes p (.ofNat v)
  have hprev : (setNext p v m).half (p + 2) = m.half (p + 2) :=
    m.half_write_disjoint (.inr (Nat.le_refl _))
  unfold memAt
  rw [hnext, hprev, setNext_apply (.inr (by omega)), UInt16.toNat_ofNat_of_lt' hv]

theorem memAt_setPrev (hv : v < 65536) :
    memAt (setPrev p v m) p = { memAt m p with prev := v } := by
  have hnext : (setPrev p v m).half p = m.half p := m.half_write_disjoint (.inl (Nat.le_refl _))
  have hprev : (setPrev p v m).half (p + 2) = .ofNat v := m.half_write_halfBytes (p + 2) (.ofNat v)
  unfold memAt
  rw [hnext, hprev, setPrev_apply (.inr (by omega)), UInt16.toNat_ofNat_of_lt' hv]

theorem memAt_setUsed : memAt (setUsed p used m) p = { memAt m p with used := used } := by
  have hnext : (setUsed p used m).half p = m.half p := m.half_write_disjoint (.inl (by omega))
  have hprev : (setUsed p used m).half (p + 2) = m.half (p + 2) :=
    m.half_write_disjoint (.inl (by omega))
  have hused : setUsed p used m (p + 4) = if used then 1 else 0 := by
    unfold setUsed
    rw [Mem.write_of_mem m (Nat.le_refl _) (by simp)]
    simp
  unfold memAt
  rw [hnext, hprev, hused]
  cases used <;> rfl

theorem memAt_setNext_apart (h : p + 5 ≤ q ∨ q + 5 ≤ p) : memAt (setNext p v m) q = memAt m q :=
  memAt_congr fun i hi hi' => setNext_apply (by omega)

theorem memAt_setPrev_apart (h : p + 5 ≤ q ∨ q + 5 ≤ p) : memAt (setPrev p v m) q = memAt m q :=
  memAt_congr fun i hi hi' => setPrev_apply (by omega)

theorem memAt_setUsed_apart (h : p + 5 ≤ q ∨ q + 5 ≤ p) : memAt (setUsed p used m) q = memAt m q :=
  memAt_congr fun i hi hi' => setUsed_apply (by omega)

end Headers

/-! ## Blocks in the heap -/

/-- The least size of a block, header included. -/
def leastBlock : Nat := sizeofStructMem + minSizeAligned

/-- The headers from `pos` on are those of the blocks, and the first one points back to `prev`. -/
def HeapLinked (hd : Nat → MemHdr) : Nat → Nat → List Block → Prop
  | _, _, [] => True
  | prev, pos, b :: bs =>
      hd pos = ⟨pos + b.size, prev, b.used⟩ ∧ HeapLinked hd pos (pos + b.size) bs

/-- Where the last block begins, `prev` if there is none. -/
def lastAt : Nat → Nat → List Block → Nat
  | prev, _, [] => prev
  | _, pos, b :: bs => lastAt pos (pos + b.size) bs

section Linking

variable {hd hd' : Nat → MemHdr} {prev pos : Nat} {a b : Block} {bs pre post old new : List Block}

theorem heapLinked_append :
    HeapLinked hd prev pos (pre ++ post) ↔
      HeapLinked hd prev pos pre ∧ HeapLinked hd (lastAt prev pos pre) (pos + whole pre) post := by
  induction pre generalizing prev pos with
  | nil => exact (and_iff_right trivial).symm
  | cons b pre ih =>
      simp only [List.cons_append, HeapLinked, ih, lastAt, whole_cons, Nat.add_assoc, and_assoc]

theorem lastAt_concat : lastAt prev pos (pre ++ [b]) = pos + whole pre := by
  induction pre generalizing prev pos with
  | nil => rfl
  | cons c pre ih =>
      rw [List.cons_append, lastAt, ih, whole_cons, Nat.add_assoc]

theorem lastAt_cons_ne (h : bs ≠ []) (prev' : Nat) : lastAt prev pos bs = lastAt prev' pos bs := by
  cases bs with
  | nil => exact absurd rfl h
  | cons b bs => rfl

theorem HeapLinked.congr (h : HeapLinked hd prev pos bs)
    (hhd : ∀ q ∈ placed pos bs, hd' q.1 = hd q.1) :
    HeapLinked hd' prev pos bs := by
  induction bs generalizing prev pos with
  | nil => trivial
  | cons b bs ih =>
      exact ⟨(hhd _ (.head _)).trans h.1, ih h.2 fun q hq => hhd q (.tail _ hq)⟩

/-- The blocks in the middle change.  The headers of the others stay, but that the one behind
points back to the last of the new ones. -/
theorem HeapLinked.replace (h : HeapLinked hd prev pos (pre ++ old ++ post))
    (hleast : ∀ b ∈ pre ++ old ++ post, leastBlock ≤ b.size) (hwhole : whole new = whole old)
    (hnew : HeapLinked hd' (lastAt prev pos pre) (pos + whole pre) new) (hne : new ≠ [])
    (hnext : post ≠ [] →
      hd' (pos + whole pre + whole old) =
        { hd (pos + whole pre + whole old) with prev := lastAt 0 (pos + whole pre) new })
    (hframe : ∀ q, q + leastBlock ≤ pos + whole pre ∨
        pos + whole pre + whole old + leastBlock ≤ q → hd' q = hd q) :
    HeapLinked hd' prev pos (pre ++ new ++ post) := by
  rw [List.append_assoc, heapLinked_append, heapLinked_append] at h
  obtain ⟨hpre, -, hpost⟩ := h
  rw [List.append_assoc, heapLinked_append, heapLinked_append, hwhole]
  refine ⟨hpre.congr fun ⟨q, b⟩ hq => hframe q (.inl ?_), hnew, ?_⟩
  · have hin := (placed_within hq).2
    have hb := hleast b (List.mem_append_left _ (List.mem_append_left _ (mem_of_placed hq)))
    omega
  · cases post with
    | nil => trivial
    | cons b post =>
        have hb := hleast b (List.mem_append_right _ (.head _))
        refine ⟨?_, hpost.2.congr fun ⟨q, c⟩ hq => hframe q (.inr ?_)⟩
        · rw [hnext (List.cons_ne_nil _ _), hpost.1, lastAt_cons_ne hne]
        · have hin := (placed_within hq).1
          omega

end Linking

/-- The memory holds a heap cut into the blocks. -/
structure Cut (m : Mem) (bs : List Block) : Prop where
  linked : HeapLinked (memAt m) 0 0 bs
  least_le : ∀ b ∈ bs, leastBlock ≤ b.size
  whole_eq : whole bs = memSizeAligned
  ramEnd : (memAt m memSizeAligned).used = true

/-- The heap holds the blocks. -/
structure Heap.Rep (h : Heap) (bs : List Block) : Prop where
  cut : Cut h.ram bs
  tidy : Tidy leastBlock 4 bs
  lfree : h.lfree = firstFree 0 bs
  stats : h.stats.used.toNat = inUse bs

theorem memSizeAligned_eq : memSizeAligned = 10000 := by decide

theorem sizeofStructMem_eq : sizeofStructMem = 8 := by decide

theorem minSizeAligned_eq : minSizeAligned = 12 := by decide

theorem leastBlock_eq : leastBlock = 20 := by decide

/-- A difference that does not wrap around. -/
theorem u32Sub_eq {a b : Nat} (h : b ≤ a) : u32Sub a b = a - b := if_pos h

/-- The data of a block is aligned, and it is what was asked for unless the size wraps around. -/
theorem dataSize_spec (size : UInt16) :
    minSizeAligned ≤ dataSize size ∧ 4 ∣ dataSize size ∧ dataSize size < 65536 ∧
      (size.toNat ≤ 65532 → size.toNat ≤ dataSize size) := by
  have hsize := size.toNat_lt
  have halign : lwipMemAlignSize size.toNat = (size.toNat + 3) / 4 * 4 := rfl
  have hmin := minSizeAligned_eq
  unfold dataSize
  dsimp only
  split <;> omega

namespace Cut

variable {m : Mem} {size fuel prev pos : Nat} {b c : Block} {bs pre post : List Block}

theorem memAt_eq (h : Cut m (pre ++ b :: post)) :
    memAt m (whole pre) = ⟨whole pre + b.size, lastAt 0 0 pre, b.used⟩ := by
  have hlink := (heapLinked_append.mp h.linked).2.1
  rwa [Nat.zero_add] at hlink

/-- What a block and the one behind it leave of the heap. -/
theorem bound (h : Cut m (pre ++ b :: post)) :
    leastBlock ≤ b.size ∧ whole pre + b.size + whole post = memSizeAligned := by
  refine ⟨h.least_le b (List.mem_append_right _ (.head _)), ?_⟩
  rw [← h.whole_eq, whole_append, whole_cons, Nat.add_assoc]

theorem length_lt (h : Cut m bs) : bs.length < memSizeAligned := by
  have hle (bs : List Block) (hbs : ∀ b ∈ bs, leastBlock ≤ b.size) :
      leastBlock * bs.length ≤ whole bs := by
    induction bs with
    | nil => exact Nat.le_refl 0
    | cons b bs ih =>
        have hb := hbs b (.head bs)
        have hrest := ih fun c hc => hbs c (.tail b hc)
        rw [List.length_cons, whole_cons, Nat.mul_succ]
        omega
  have hblocks := hle bs h.least_le
  rw [h.whole_eq, leastBlock_eq] at hblocks
  rw [memSizeAligned_eq] at hblocks ⊢
  omega

end Cut

section Searching

variable {m : Mem} {size fuel prev pos : Nat} {bs : List Block}

/-- The search finds the first block that is large enough. -/
theorem scanFree_eq (hlink : HeapLinked (memAt m) prev pos bs)
    (hleast : ∀ b ∈ bs, leastBlock ≤ b.size) (hend : pos + whole bs = memSizeAligned)
    (hfuel : bs.length < fuel) :
    scanFree size m fuel pos =
      some ((firstFit (size + sizeofStructMem) bs).map fun r => pos + whole r.1) := by
  induction bs generalizing prev pos fuel with
  | nil =>
      obtain ⟨fuel, rfl⟩ := Nat.exists_eq_add_of_lt hfuel
      rw [scanFree, if_neg (by rw [whole_nil] at hend; omega)]
      rfl
  | cons b bs ih =>
      obtain ⟨fuel, rfl⟩ := Nat.exists_eq_add_one_of_ne_zero (Nat.ne_zero_of_lt hfuel)
      have hb := hleast b (.head bs)
      rw [whole_cons] at hend
      rw [leastBlock_eq] at hb
      rw [memSizeAligned_eq] at hend
      rw [scanFree]
      split
      next hin =>
        have hdata : u32Sub (memAt m pos).next (pos + sizeofStructMem) = b.size - 8 := by
          rw [hlink.1, sizeofStructMem_eq, u32Sub_eq (by simp only; omega)]
          simp only
          omega
        have hfits : (!(memAt m pos).used) = true ∧
            size ≤ u32Sub (memAt m pos).next (pos + sizeofStructMem) ↔
              Fits (size + sizeofStructMem) b := by
          rw [hdata, hlink.1, Bool.not_eq_true', Fits, sizeofStructMem_eq]
          refine and_congr_right fun _ => ?_
          omega
        simp only [hfits, firstFit]
        split
        · simp
        · rw [hlink.1, ih hlink.2 (fun c hc => hleast c (.tail b hc))
            (by rw [memSizeAligned_eq]; omega) (Nat.lt_of_succ_lt_succ hfuel), Option.map_map]
          refine congrArg some (congrArg (fun f => Option.map f _) (funext fun r => ?_))
          simp only [Function.comp, whole_cons, Nat.add_assoc]
      next hout =>
        rw [memSizeAligned_eq] at hout
        have hnone : firstFit (size + sizeofStructMem) (b :: bs) = none := by
          refine firstFit_eq_none_iff.mpr fun c hc hfits => ?_
          obtain ⟨q, hq⟩ := @exists_placed pos _ _ hc
          have hin := placed_within hq
          have hsize := hfits.2
          rw [whole_cons] at hin
          rw [sizeofStructMem_eq] at hsize
          omega
        rw [hnone]
        rfl

/-- The loop for the next free block finds the first. -/
theorem nextFree_eq (hlink : HeapLinked (memAt m) prev pos bs)
    (hleast : ∀ b ∈ bs, leastBlock ≤ b.size) (hend : pos + whole bs = memSizeAligned)
    (hfuel : bs.length < fuel) : nextFree m fuel pos = some (firstFree pos bs) := by
  induction bs generalizing prev pos fuel with
  | nil =>
      obtain ⟨fuel, rfl⟩ := Nat.exists_eq_add_one_of_ne_zero (Nat.ne_zero_of_lt hfuel)
      rw [nextFree, if_neg fun h => h.2 hend]
      rfl
  | cons b bs ih =>
      obtain ⟨fuel, rfl⟩ := Nat.exists_eq_add_one_of_ne_zero (Nat.ne_zero_of_lt hfuel)
      have hb := hleast b (.head bs)
      rw [whole_cons] at hend
      rw [leastBlock_eq] at hb
      rw [nextFree, firstFree, hlink.1]
      by_cases hused : b.used = true
      · rw [if_pos ⟨hused, by omega⟩, if_pos hused]
        exact ih hlink.2 (fun c hc => hleast c (.tail b hc)) ((Nat.add_assoc ..).trans hend)
          (Nat.lt_of_succ_lt_succ hfuel)
      · rw [if_neg fun h => hused h.1, if_neg hused]

end Searching

/-! ## Stores into headers -/

section Stores

variable {m R : Mem} {ptr ptr2 next n : Nat} {used : Bool} {a b : Block}
  {pre post old : List Block}

/-- `R` is `m` after a `struct mem` of a free block is put at `ptr2`, behind the one at `ptr`, which
is in use, and in front of the one at `next`. -/
structure Inserted (m R : Mem) (ptr ptr2 next : Nat) : Prop where
  first : memAt R ptr = { memAt m ptr with next := ptr2, used := true }
  second : memAt R ptr2 = ⟨next, ptr, false⟩
  behind : memAt R next =
    if next ≠ memSizeAligned then { memAt m next with prev := ptr2 } else memAt m next
  frame : ∀ i, i < ptr ∨ (ptr + 5 ≤ i ∧ i < ptr2) ∨ next + 5 ≤ i → R i = m i

theorem memAt_createMem2 (h : ptr + 5 ≤ ptr2) (hptr2 : ptr2 < 65536) (hnext : next < 65536) :
    memAt (createMem2 ptr ptr2 next m) ptr = { memAt m ptr with next := ptr2 } ∧
      memAt (createMem2 ptr ptr2 next m) ptr2 = ⟨next, ptr, false⟩ := by
  unfold createMem2
  constructor
  · rw [memAt_setNext hptr2, memAt_setPrev_apart (.inr h), memAt_setNext_apart (.inr h),
      memAt_setUsed_apart (.inr h)]
  · rw [memAt_setNext_apart (.inl h), memAt_setPrev (by omega), memAt_setNext hnext, memAt_setUsed]

theorem createMem2_apply {i : Nat} (h : i < ptr ∨ ptr + 5 ≤ i) (h2 : i < ptr2 ∨ ptr2 + 5 ≤ i) :
    createMem2 ptr ptr2 next m i = m i := by
  unfold createMem2
  rw [setNext_apply (by omega), setPrev_apply (by omega), setNext_apply (by omega),
    setUsed_apply (by omega)]

/-- What `linkBack` adds to a memory with a new `struct mem`. -/
theorem inserted_linkBack {X : Mem} (h : ptr + 5 ≤ ptr2) (h2 : ptr2 + 5 ≤ next)
    (hptr2 : ptr2 < 65536) (hfirst : memAt X ptr = { memAt m ptr with next := ptr2, used := true })
    (hsecond : memAt X ptr2 = ⟨next, ptr, false⟩)
    (hframe : ∀ i, (i < ptr ∨ ptr + 5 ≤ i) → (i < ptr2 ∨ ptr2 + 5 ≤ i) → X i = m i) :
    Inserted m (linkBack ptr2 X) ptr ptr2 next := by
  have hbehind : memAt X next = memAt m next :=
    memAt_congr fun i hi hi' => hframe i (by omega) (by omega)
  unfold linkBack
  rw [hsecond]
  dsimp only
  split
  next hend =>
    refine ⟨?_, ?_, ?_, fun i hi => ?_⟩
    · rw [memAt_setPrev_apart (by omega), hfirst]
    · rw [memAt_setPrev_apart (by omega), hsecond]
    · rw [memAt_setPrev hptr2, hbehind, if_pos hend]
    · rw [setPrev_apply (by omega), hframe i (by omega) (by omega)]
  next hend =>
    refine ⟨hfirst, hsecond, ?_, fun i hi => hframe i (by omega) (by omega)⟩
    rw [hbehind, if_neg hend]

/-- `mem_malloc` takes the block it splits into use. -/
theorem inserted_take (h : ptr + 5 ≤ ptr2) (h2 : ptr2 + 5 ≤ next) (hnext : next < 65536) :
    Inserted m (linkBack ptr2 (setUsed ptr true (createMem2 ptr ptr2 next m))) ptr ptr2 next := by
  have hcreate := memAt_createMem2 (m := m) h (by omega) hnext
  refine inserted_linkBack h h2 (by omega) ?_ ?_ fun i hi hi' => ?_
  · rw [memAt_setUsed, hcreate.1]
  · rw [memAt_setUsed_apart (.inl h), hcreate.2]
  · rw [setUsed_apply (by omega), createMem2_apply hi hi']

/-- `mem_trim` splits a block in use. -/
theorem inserted_trim (h : ptr + 5 ≤ ptr2) (h2 : ptr2 + 5 ≤ next) (hnext : next < 65536)
    (hused : (memAt m ptr).used = true) :
    Inserted m (linkBack ptr2 (createMem2 ptr ptr2 next m)) ptr ptr2 next := by
  have hcreate := memAt_createMem2 (m := m) h (by omega) hnext
  refine inserted_linkBack h h2 (by omega) ?_ hcreate.2 fun i hi hi' => createMem2_apply hi hi'
  rw [hcreate.1, ← hused]

/-- A header outside what is stored into. -/
theorem memAt_frame {q lo hi : Nat} (hframe : ∀ i, i < lo ∨ hi ≤ i → R i = m i)
    (h : q + 5 ≤ lo ∨ hi ≤ q) : memAt R q = memAt m q :=
  memAt_congr fun i hi hi' => hframe i (by omega)

/-- Blocks of which the first gets `n` octets and the rest becomes free. -/
theorem Cut.insert (h : Cut m (pre ++ b :: old ++ post))
    (hins : Inserted m R (whole pre) (whole pre + n) (whole pre + whole (b :: old)))
    (hn : leastBlock ≤ n) (hrest : n + leastBlock ≤ whole (b :: old)) :
    Cut R (pre ++ [⟨n, true⟩, ⟨whole (b :: old) - n, false⟩] ++ post) := by
  have hleast := leastBlock_eq
  have hfirst : memAt m (whole pre) = ⟨whole pre + b.size, lastAt 0 0 pre, b.used⟩ := by
    have h' := h
    rw [List.append_assoc, List.cons_append] at h'
    exact h'.memAt_eq
  have hwhole : whole pre + whole (b :: old) + whole post = memSizeAligned := by
    rw [← h.whole_eq, whole_append, whole_append]
  have hend : post ≠ [] → whole pre + whole (b :: old) ≠ memSizeAligned := by
    intro hne heq
    obtain ⟨c, rest, rfl⟩ := List.exists_cons_of_ne_nil hne
    have hc := h.least_le c (List.mem_append_right _ (.head _))
    rw [whole_cons (b := c)] at hwhole
    omega
  have hframe (i : Nat) (hi : i < whole pre ∨ whole pre + whole (b :: old) + 5 ≤ i) :
      R i = m i := hins.frame i (by omega)
  refine ⟨HeapLinked.replace h.linked h.least_le ?_ ⟨?_, ?_, trivial⟩
    (List.cons_ne_nil _ _) ?_ ?_, ?_, ?_, ?_⟩
  · simp only [whole_cons, whole_nil] at hrest ⊢
    omega
  · rw [Nat.zero_add, hins.first, hfirst]
  · simp only [Nat.zero_add, hins.second]
    congr 1
    omega
  · intro hne
    rw [Nat.zero_add, hins.behind, if_pos (hend hne)]
    rfl
  · intro q hq
    exact memAt_frame hframe (by omega)
  · intro c hc
    rcases List.mem_append.mp hc with hc | hc
    · rcases List.mem_append.mp hc with hc | hc
      · exact h.least_le c (List.mem_append_left _ (List.mem_append_left _ hc))
      · simp only [List.mem_cons, List.not_mem_nil, or_false] at hc
        rcases hc with rfl | rfl
        · exact hn
        · simp only
          omega
    · exact h.least_le c (List.mem_append_right _ hc)
  · rw [← hwhole]
    simp only [whole_append, whole_cons, whole_nil] at hrest ⊢
    omega
  · by_cases heq : whole pre + whole (b :: old) = memSizeAligned
    · have hbehind := hins.behind
      rw [heq, if_neg fun h => h rfl] at hbehind
      rw [hbehind]
      exact h.ramEnd
    · rw [memAt_frame hframe, h.ramEnd]
      refine .inr ?_
      have hne : post ≠ [] := by
        rintro rfl
        exact heq hwhole
      obtain ⟨c, rest, rfl⟩ := List.exists_cons_of_ne_nil hne
      have hc := h.least_le c (List.mem_append_right _ (.head _))
      rw [whole_cons (b := c)] at hwhole
      omega

/-- A block is marked. -/
theorem Cut.mark (h : Cut m (pre ++ b :: post)) :
    Cut (setUsed (whole pre) used m) (pre ++ ⟨b.size, used⟩ :: post) := by
  have hleast := leastBlock_eq
  have hb := h.bound
  have hlist : pre ++ b :: post = pre ++ [b] ++ post := by simp
  have hlink := h.linked
  have hsizes := h.least_le
  rw [hlist] at hlink hsizes
  have happend : pre ++ ⟨b.size, used⟩ :: post = pre ++ [⟨b.size, used⟩] ++ post := by simp
  refine ⟨?_, ?_, ?_, ?_⟩
  · rw [happend]
    refine HeapLinked.replace hlink hsizes rfl ⟨?_, trivial⟩ (List.cons_ne_nil _ _) ?_ ?_
    · rw [Nat.zero_add, memAt_setUsed, h.memAt_eq]
    · intro hne
      obtain ⟨c, rest, rfl⟩ := List.exists_cons_of_ne_nil hne
      have hc := h
      rw [hlist] at hc
      have hnext := hc.memAt_eq
      simp only [whole_append, whole_cons, whole_nil, Nat.add_zero] at hnext
      simp only [whole_cons, whole_nil, Nat.zero_add, Nat.add_zero]
      rw [memAt_setUsed_apart (by omega), hnext, lastAt_concat, Nat.zero_add]
      rfl
    · intro q hq
      simp only [whole_cons, whole_nil] at hq
      exact memAt_setUsed_apart (by omega)
  · intro c hc
    rcases List.mem_append.mp hc with hc | hc
    · exact h.least_le c (List.mem_append_left _ hc)
    · rcases List.mem_cons.mp hc with rfl | hc
      · exact hb.1
      · exact h.least_le c (List.mem_append_right _ (.tail b hc))
  · rw [← h.whole_eq]
    simp
  · rw [memAt_setUsed_apart (by omega), h.ramEnd]

/-- Two blocks become one. -/
theorem Cut.merge (h : Cut m (pre ++ [a, b] ++ post)) :
    Cut (setPrev (whole pre + (a.size + b.size)) (whole pre)
        (setNext (whole pre) (whole pre + (a.size + b.size)) m))
      (pre ++ [⟨a.size + b.size, a.used⟩] ++ post) := by
  have hleast := leastBlock_eq
  have hfirst : memAt m (whole pre) = ⟨whole pre + a.size, lastAt 0 0 pre, a.used⟩ := by
    have h' := h
    rw [List.append_assoc, List.cons_append] at h'
    exact h'.memAt_eq
  have ha := h.least_le a (List.mem_append_left _ (List.mem_append_right _ (.head _)))
  have hwhole : whole pre + (a.size + b.size) + whole post = memSizeAligned := by
    rw [← h.whole_eq]
    simp only [whole_append, whole_cons, whole_nil]
    omega
  have hsize := memSizeAligned_eq
  have happend : whole ([a, b] : List Block) = a.size + b.size := by simp
  refine ⟨HeapLinked.replace h.linked h.least_le ?_ ⟨?_, trivial⟩
    (List.cons_ne_nil _ _) ?_ ?_, ?_, ?_, ?_⟩
  · simp
  · rw [Nat.zero_add, memAt_setPrev_apart (by omega), memAt_setNext (by omega), hfirst]
  · intro hne
    rw [happend, Nat.zero_add, memAt_setPrev (by omega), memAt_setNext_apart (by omega)]
    rfl
  · intro q hq
    rw [happend] at hq
    rw [memAt_setPrev_apart (by omega), memAt_setNext_apart (by omega)]
  · intro c hc
    rcases List.mem_append.mp hc with hc | hc
    · rcases List.mem_append.mp hc with hc | hc
      · exact h.least_le c (List.mem_append_left _ (List.mem_append_left _ hc))
      · obtain rfl := List.mem_singleton.mp hc
        exact Nat.le_trans ha (Nat.le_add_right ..)
    · exact h.least_le c (List.mem_append_right _ hc)
  · rw [← hwhole]
    simp only [whole_append, whole_cons, whole_nil]
    omega
  · by_cases heq : whole pre + (a.size + b.size) = memSizeAligned
    · rw [heq, memAt_setPrev (by omega), memAt_setNext_apart (by omega)]
      exact h.ramEnd
    · have hne : post ≠ [] := by
        rintro rfl
        exact heq hwhole
      obtain ⟨c, rest, rfl⟩ := List.exists_cons_of_ne_nil hne
      have hc := h.least_le c (List.mem_append_right _ (.head _))
      rw [whole_cons] at hwhole
      rw [memAt_setPrev_apart (by omega), memAt_setNext_apart (by omega), h.ramEnd]

end Stores

/-! ## What the calls do -/

section Calls

variable {h : Heap} {size : Nat} {b : Block} {bs pre post : List Block}

theorem Heap.Rep.scanFree_lfree (hrep : h.Rep bs) (size : Nat) :
    scanFree size h.ram memSizeAligned h.lfree =
      some ((firstFit (size + sizeofStructMem) bs).map fun r => whole r.1) := by
  obtain ⟨pre, post, rfl, hpre, hfree⟩ := firstFree_split 0 bs
  have hlink := (heapLinked_append.mp hrep.cut.linked).2
  have hlength := hrep.cut.length_lt
  rw [List.length_append] at hlength
  rw [hrep.lfree, hfree, scanFree_eq hlink
    (fun b hb => hrep.cut.least_le b (List.mem_append_right _ hb))
    (by rw [← hrep.cut.whole_eq, whole_append, Nat.zero_add]) (by omega),
    firstFit_append_used hpre, Option.map_map]
  refine congrArg some (congrArg (fun f => Option.map f _) (funext fun r => ?_))
  rw [Function.comp, whole_append, Nat.zero_add]

theorem toNat_add_ofNat {a : UInt16} {n : Nat} (h : a.toNat + n < 65536) :
    (a + .ofNat n).toNat = a.toNat + n := by
  rw [UInt16.toNat_add, UInt16.toNat_ofNat_of_lt' (show n < 65536 by omega)]
  exact Nat.mod_eq_of_lt h

theorem toNat_sub_ofNat {a : UInt16} {n : Nat} (h : n ≤ a.toNat) :
    (a - .ofNat n).toNat = a.toNat - n := by
  have ha := a.toNat_lt
  have hn : (UInt16.ofNat n).toNat = n := UInt16.toNat_ofNat_of_lt' (show n < 65536 by omega)
  rw [UInt16.toNat_sub_of_le, hn]
  rw [UInt16.le_iff_toNat_le, hn]
  exact h

theorem takeFree_spec (hrep : h.Rep (pre ++ b :: post)) (hfits : Fits (size + sizeofStructMem) b)
    (hmin : minSizeAligned ≤ size) :
    Cut (takeFree size (whole pre) h).ram
        (pre ++ carve leastBlock (size + sizeofStructMem) b ++ post) ∧
      (takeFree size (whole pre) h).lfree = h.lfree ∧
      (takeFree size (whole pre) h).stats.used.toNat =
        inUse (pre ++ carve leastBlock (size + sizeofStructMem) b ++ post) ∧
      ∀ i, i < whole pre ∨ whole pre + b.size + 5 ≤ i →
        (takeFree size (whole pre) h).ram i = h.ram i := by
  obtain ⟨hfree, hn⟩ := hfits
  have hat := hrep.cut.memAt_eq
  have hbound := hrep.cut.bound
  have hinUse : inUse (pre ++ b :: post) = inUse pre + inUse post := by
    rw [inUse_append, inUse_cons, hfree]
    simp
  have hgrant := @grant_le leastBlock _ _ hn
  have hle₁ := @inUse_le_whole pre
  have hle₂ := @inUse_le_whole post
  have hstats := hrep.stats
  rw [hinUse] at hstats
  rw [inUse_append, inUse_append, inUse_carve]
  rw [sizeofStructMem_eq] at hn hgrant ⊢
  rw [minSizeAligned_eq] at hmin
  rw [leastBlock_eq, memSizeAligned_eq] at hbound
  have hdata : u32Sub (memAt h.ram (whole pre)).next (whole pre + 8) = b.size - 8 := by
    rw [hat, u32Sub_eq (by simp only; omega)]
    simp only
    omega
  have hsplit : size + 8 + 12 ≤ b.size - 8 ↔ size + 8 + leastBlock ≤ b.size := by
    rw [leastBlock_eq]
    omega
  unfold takeFree
  simp only [sizeofStructMem_eq, minSizeAligned_eq, hdata, hsplit]
  unfold carve grant
  split
  next hroom =>
    rw [grant, if_pos hroom] at hgrant
    rw [leastBlock_eq] at hroom
    have hins := @inserted_take h.ram (whole pre) (whole pre + 8 + size) (whole pre + b.size)
      (by omega) (by omega) (by omega)
    have hcut : Cut h.ram (pre ++ [b] ++ post) := by
      rw [List.append_assoc]
      exact hrep.cut
    rw [hat]
    have hsum : whole pre + 8 + size = whole pre + (size + 8) := by omega
    have hnew := hcut.insert (n := size + 8)
      (R := linkBack (whole pre + 8 + size)
        (setUsed (whole pre) true
          (createMem2 (whole pre) (whole pre + 8 + size) (whole pre + b.size) h.ram)))
      (hsum ▸ hins) (by rw [leastBlock_eq]; omega) (by rw [leastBlock_eq]; simpa using hroom)
    simp only [whole_cons, whole_nil, Nat.add_zero] at hnew
    refine ⟨hnew, rfl, ?_, fun i hi => hins.frame i ?_⟩
    · simp only [incUsed]
      rw [toNat_add_ofNat (by omega)]
      omega
    · omega
  next hroom =>
    rw [grant, if_neg hroom] at hgrant
    rw [hat]
    refine ⟨?_, rfl, ?_, fun i hi => setUsed_apply (by omega)⟩
    · rw [List.append_assoc]
      exact hrep.cut.mark
    · simp only [incUsed, Nat.add_sub_cancel_left]
      rw [toNat_add_ofNat (by omega)]
      omega

/-- The octets of data in the blocks in use. -/
def BlockData (bs : List Block) (i : Nat) : Prop :=
  ∃ q s, (q, s) ∈ usedAt 0 bs ∧ q + sizeofStructMem ≤ i ∧ i < q + s

/-- Data lies in front of a place between two blocks, or behind the header there. -/
theorem blockData_append {i : Nat} (hi : BlockData (pre ++ post) i) :
    BlockData pre i ∧ i < whole pre ∨ whole pre + sizeofStructMem ≤ i := by
  obtain ⟨q, s, hmem, hlo, hhi⟩ := hi
  rw [usedAt_append, Nat.zero_add] at hmem
  rcases List.mem_append.mp hmem with hmem | hmem
  · have hin := (usedAt_within hmem).2
    exact .inl ⟨⟨q, s, hmem, hlo, hhi⟩, by omega⟩
  · have hin := (usedAt_within hmem).1
    exact .inr (by omega)

/-- A free block holds no data. -/
theorem blockData_free {i : Nat} (hb : b.used = false) (hi : BlockData (pre ++ b :: post) i) :
    BlockData pre i ∧ i < whole pre ∨ whole pre + b.size + sizeofStructMem ≤ i := by
  have hlist : pre ++ b :: post = pre ++ [b] ++ post := by simp
  rw [hlist] at hi
  rcases blockData_append hi with ⟨hin, -⟩ | hout
  · obtain ⟨q, s, hmem, hlo, hhi⟩ := hin
    have hused : usedAt 0 (pre ++ [b]) = usedAt 0 pre := by
      simp [usedAt_append, usedAt, hb]
    rw [hused] at hmem
    have hwithin := (usedAt_within hmem).2
    exact .inl ⟨⟨q, s, hmem, hlo, hhi⟩, by omega⟩
  · rw [whole_append, whole_cons, whole_nil, Nat.add_zero] at hout
    exact .inr hout

/-- A request that no free block is large enough for changes nothing. -/
theorem memMalloc_none {size : UInt16} (hrep : h.Rep bs)
    (hnone : size = 0 ∨ firstFit (dataSize size + sizeofStructMem) bs = none) :
    ∃ h', memMalloc size h = some (none, h') ∧ h'.ram = h.ram ∧ h'.Rep bs := by
  by_cases hzero : size = 0
  · exact ⟨h, if_pos hzero, rfl, hrep⟩
  · by_cases hlarge : dataSize size > memSizeAligned
    · refine ⟨h, ?_, rfl, hrep⟩
      rw [memMalloc, if_neg hzero]
      exact if_pos hlarge
    · refine ⟨{ h with stats := { h.stats with err := h.stats.err + 1 } }, ?_, rfl, ?_⟩
      · rw [memMalloc, if_neg hzero]
        dsimp only
        rw [if_neg hlarge, hrep.scanFree_lfree, hnone.resolve_left hzero]
        rfl
      · exact ⟨hrep.cut, hrep.tidy, hrep.lfree, hrep.stats⟩

/-- Where the first block that is large enough begins, the data of the request begins behind its
header. -/
theorem memMalloc_some {size : UInt16} (hrep : h.Rep bs) (hne : size ≠ 0)
    (hfit : firstFit (dataSize size + sizeofStructMem) bs = some (pre, b, post)) :
    ∃ h', memMalloc size h = some (some (whole pre + sizeofStructMem), h') ∧
      h'.Rep (pre ++ carve leastBlock (dataSize size + sizeofStructMem) b ++ post) ∧
      ∀ i, BlockData bs i → h'.ram i = h.ram i := by
  obtain ⟨rfl, hfits, hbefore⟩ := firstFit_eq_some_iff.mp hfit
  obtain ⟨hmin, hdvd, -, -⟩ := dataSize_spec size
  obtain ⟨hcut, hlfree, hstats, hframe⟩ := takeFree_spec hrep hfits hmin
  have htidy := hrep.tidy.carve hfits.1 (n := dataSize size + sizeofStructMem)
    (by rw [leastBlock]; omega) (Nat.dvd_add hdvd (by decide))
  have hbound := hrep.cut.bound
  have hlarge : ¬ dataSize size > memSizeAligned := by
    have hle := hfits.2
    omega
  -- The next free block is looked for only if the first was taken.
  have hadjust : adjustLfree (whole pre) (takeFree (dataSize size) (whole pre) h) =
      some { takeFree (dataSize size) (whole pre) h with
        lfree := firstFree 0
          (pre ++ carve leastBlock (dataSize size + sizeofStructMem) b ++ post) } := by
    have hpos : ∀ a ∈ pre, 0 < a.size := fun a ha => by
      have := hrep.cut.least_le a (List.mem_append_left _ ha)
      rw [leastBlock_eq] at this
      omega
    unfold adjustLfree
    rw [hlfree, hrep.lfree]
    rcases all_used_or_exists_free pre with hused | hsome
    · have hfirst : firstFree 0 (pre ++ b :: post) = whole pre := by
        rw [firstFree_append_cons hfits.1, firstFree_of_used hused, Nat.zero_add]
      have hlink := hcut.linked
      have hleast := hcut.least_le
      have hlength := hcut.length_lt
      have hwhole := hcut.whole_eq
      rw [List.append_assoc] at hlink hleast hlength hwhole ⊢
      rw [List.length_append] at hlength
      rw [whole_append] at hwhole
      have hnext := nextFree_eq (heapLinked_append.mp hlink).2
        (fun c hc => hleast c (List.mem_append_right _ hc)) (by rw [Nat.zero_add]; exact hwhole)
        (show _ < memSizeAligned by omega)
      rw [Nat.zero_add] at hnext
      rw [hfirst, if_pos rfl, hnext, firstFree_append_used hused, Nat.zero_add]
      rfl
    · have hlt := @firstFree_lt 0 _ hsome hpos
      rw [Nat.zero_add] at hlt
      rw [firstFree_append_free hsome, if_neg (by omega), List.append_assoc,
        firstFree_append_free hsome, ← @firstFree_append_free _ _ (b :: post) hsome,
        ← hrep.lfree, ← hlfree]
  refine ⟨{ takeFree (dataSize size) (whole pre) h with
      lfree := firstFree 0 (pre ++ carve leastBlock (dataSize size + sizeofStructMem) b ++ post) },
    ?_, ⟨hcut, htidy, rfl, hstats⟩, fun i hi => hframe i ?_⟩
  · rw [memMalloc, if_neg hne]
    dsimp only
    rw [if_neg hlarge, hrep.scanFree_lfree, hfit]
    simp only [Option.map_some, Option.bind_some, hadjust]
  · rw [sizeofStructMem_eq] at *
    rcases blockData_free hfits.1 hi with ⟨-, hin⟩ | hout
    · exact .inl hin
    · rw [sizeofStructMem_eq] at hout
      exact .inr (by omega)

/-- What `plugForward` does behind a block that has been made free. -/
theorem plugForward_spec {n : Nat} (hcut : Cut h.ram (pre ++ ⟨n, false⟩ :: post))
    (hlfree : h.lfree ≤ whole pre) :
    Cut (plugForward (whole pre) h).ram (pre ++ joinFront n post) ∧
      (plugForward (whole pre) h).lfree = h.lfree ∧
      (plugForward (whole pre) h).stats = h.stats ∧
      ∀ i, BlockData (pre ++ joinFront n post) i → (plugForward (whole pre) h).ram i = h.ram i := by
  have hat := hcut.memAt_eq
  have hbound := hcut.bound
  rw [leastBlock_eq] at hbound
  dsimp only at hat hbound
  unfold plugForward
  rw [hat]
  dsimp only
  cases post with
  | nil =>
      rw [if_neg fun hcond => hcond.2.2 hbound.2]
      exact ⟨hcut, rfl, rfl, fun _ _ => rfl⟩
  | cons c post =>
      have hcut' : Cut h.ram (pre ++ [⟨n, false⟩] ++ c :: post) := by
        rw [List.append_assoc]
        exact hcut
      have hnext := hcut'.memAt_eq
      have hc := hcut'.bound
      simp only [whole_append, whole_cons, whole_nil, Nat.add_zero] at hnext hc
      rw [leastBlock_eq, memSizeAligned_eq] at hc
      rw [hnext, joinFront]
      dsimp only
      cases hused : c.used with
      | true =>
          rw [if_neg fun hcond => Bool.false_ne_true hcond.2.1, if_pos rfl]
          exact ⟨hcut, rfl, rfl, fun _ _ => rfl⟩
      | false =>
          have hcond : whole pre ≠ whole pre + n ∧ (!false) = true ∧
              whole pre + n ≠ memSizeAligned := by
            rw [memSizeAligned_eq]
            exact ⟨by omega, rfl, by omega⟩
          rw [if_pos hcond, if_neg (by omega), if_neg Bool.false_ne_true]
          dsimp only
          rw [memAt_setNext_apart (by omega), hnext, Nat.add_assoc]
          have hboth : Cut h.ram (pre ++ [⟨n, false⟩, c] ++ post) := by
            rw [List.append_assoc]
            exact hcut
          have hmerged := hboth.merge
          rw [List.append_assoc] at hmerged
          refine ⟨hmerged, rfl, rfl, fun i hi => ?_⟩
          have hdata := blockData_free (b := ⟨n + c.size, false⟩) rfl hi
          rw [sizeofStructMem_eq] at hdata
          dsimp only at hdata ⊢
          rw [setPrev_apply (by omega), setNext_apply (by omega)]

/-- What `plugBackward` does in front of a block that has been made free. -/
theorem plugBackward_spec {n : Nat} (hcut : Cut h.ram (pre ++ ⟨n, false⟩ :: post))
    (hlfree : h.lfree = firstFree 0 pre) :
    Cut (plugBackward (whole pre) h).ram (joinBack pre (⟨n, false⟩ :: post)) ∧
      (plugBackward (whole pre) h).lfree = h.lfree ∧
      (plugBackward (whole pre) h).stats = h.stats ∧
      ∀ i, BlockData (joinBack pre (⟨n, false⟩ :: post)) i →
        (plugBackward (whole pre) h).ram i = h.ram i := by
  have hat := hcut.memAt_eq
  have hbound := hcut.bound
  rw [leastBlock_eq, memSizeAligned_eq] at hbound
  dsimp only at hat hbound
  unfold plugBackward
  rw [hat]
  dsimp only
  rcases List.eq_nil_or_concat' pre with rfl | ⟨pre, a, rfl⟩
  · rw [if_neg fun hcond => hcond.1 rfl]
    exact ⟨hcut, rfl, rfl, fun _ _ => rfl⟩
  · have hcut' : Cut h.ram (pre ++ a :: ⟨n, false⟩ :: post) := by
      rw [List.append_assoc] at hcut
      exact hcut
    have hprev := hcut'.memAt_eq
    have ha := hcut'.bound
    rw [leastBlock_eq, memSizeAligned_eq] at ha
    have hwhole : whole (pre ++ [a]) = whole pre + a.size := by simp
    rw [hwhole] at hat hbound ⊢
    rw [lastAt_concat, Nat.zero_add] at hat ⊢
    rw [hprev, joinBack_concat]
    dsimp only
    cases hused : a.used with
    | true =>
        rw [if_neg fun hcond => Bool.false_ne_true hcond.2, if_pos rfl]
        exact ⟨hcut', rfl, rfl, fun _ _ => rfl⟩
    | false =>
        have hfree : firstFree 0 (pre ++ [a]) ≠ whole pre + a.size := by
          have hle := @firstFree_le 0 pre
          rw [firstFree_append_cons hused]
          omega
        have hcond : whole pre ≠ whole pre + a.size ∧ (!false) = true := ⟨by omega, rfl⟩
        rw [if_pos hcond, if_neg (hlfree ▸ hfree), if_neg Bool.false_ne_true]
        rw [memAt_setNext_apart (by omega), hat, Nat.add_assoc]
        have hboth : Cut h.ram (pre ++ [a, ⟨n, false⟩] ++ post) := by
          rw [List.append_assoc]
          exact hcut'
        have hmerged := hboth.merge
        rw [List.append_assoc, hused] at hmerged
        refine ⟨hmerged, rfl, rfl, fun i hi => ?_⟩
        have hdata := blockData_free (b := ⟨a.size + n, false⟩) rfl hi
        rw [sizeofStructMem_eq] at hdata
        dsimp only at hdata ⊢
        rw [setPrev_apply (by omega), setNext_apply (by omega)]

/-- Data depends on the blocks in use. -/
theorem blockData_congr {bs' : List Block} {i : Nat} (heq : usedAt 0 bs = usedAt 0 bs') :
    BlockData bs i ↔ BlockData bs' i := by
  rw [BlockData, heq]
  rfl

/-- A block that is freed is joined to the free blocks beside it. -/
theorem memFree_spec (hrep : h.Rep (pre ++ b :: post)) (hused : b.used = true) :
    (memFree (some (whole pre + sizeofStructMem)) h).Rep (release pre b.size post) ∧
      ∀ i, BlockData (release pre b.size post) i →
        (memFree (some (whole pre + sizeofStructMem)) h).ram i = h.ram i := by
  have hbound := hrep.cut.bound
  have hsize := memSizeAligned_eq
  have hmark : Cut (setUsed (whole pre) false h.ram) (pre ++ ⟨b.size, false⟩ :: post) :=
    hrep.cut.mark
  have hfront := @firstFree_front 0 pre (b :: post)
  have hinUse : inUse (pre ++ b :: post) = inUse pre + b.size + inUse post := by
    rw [inUse_append, inUse_cons, if_pos hused, Nat.add_assoc]
  have hstats := hrep.stats
  rw [hinUse] at hstats
  rw [leastBlock_eq] at hbound
  rw [← hrep.lfree, Nat.zero_add] at hfront
  -- The state in front of `plug_holes`.
  obtain ⟨g, hg⟩ : ∃ g : Heap, g = decUsed b.size
      { h with ram := setUsed (whole pre) false h.ram, lfree := firstFree 0 pre } := ⟨_, rfl⟩
  have hcall : memFree (some (whole pre + sizeofStructMem)) h = plugHoles (whole pre) g := by
    have hlfree : (if whole pre < h.lfree
        then ({ h with ram := setUsed (whole pre) false h.ram, lfree := whole pre } : Heap)
        else { h with ram := setUsed (whole pre) false h.ram }) =
        { h with ram := setUsed (whole pre) false h.ram, lfree := firstFree 0 pre } := by
      split
      next hlt => rw [hfront, Nat.min_eq_right (Nat.le_of_lt hlt)]
      next hge => rw [hfront, Nat.min_eq_left (Nat.le_of_not_lt hge)]
    rw [hg, memFree, if_neg (by rw [sizeofStructMem_eq]; omega), Nat.add_sub_cancel]
    dsimp only
    rw [hlfree, hmark.memAt_eq, Nat.add_sub_cancel_left]
  have hcut : Cut g.ram (pre ++ ⟨b.size, false⟩ :: post) := hg ▸ hmark
  have hgfree : g.lfree = firstFree 0 pre := hg ▸ rfl
  have hgused : g.stats.used.toNat = inUse pre + inUse post := by
    rw [hg, decUsed]
    dsimp only
    rw [toNat_sub_ofNat (by omega)]
    omega
  have hle : g.lfree ≤ whole pre := by
    have := @firstFree_le 0 pre
    omega
  obtain ⟨hcut₁, hfree₁, hstats₁, hframe₁⟩ := plugForward_spec hcut hle
  obtain ⟨m, rest, heq, -⟩ := exists_joinFront b.size post
  have huse : usedAt 0 (release pre b.size post) = usedAt 0 (pre ++ joinFront b.size post) := by
    rw [usedAt_release, usedAt_append, usedAt_joinFront]
  rw [heq] at hcut₁ hframe₁ huse
  have hback := plugBackward_spec hcut₁ (hfree₁.trans hgfree)
  have hrelease : joinBack pre (⟨m, false⟩ :: rest) = release pre b.size post := by
    rw [release, heq]
  rw [hrelease] at hback
  obtain ⟨hcut₂, hfree₂, hstats₂, hframe₂⟩ := hback
  rw [hcall]
  refine ⟨⟨hcut₂, hrep.tidy.release, ?_, ?_⟩, fun i hi => ?_⟩
  · rw [plugHoles, hfree₂, hfree₁, hgfree, firstFree_release]
  · rw [plugHoles, hstats₂, hstats₁, hgused, inUse_release]
  · have hfreed : usedAt 0 (release pre b.size post) =
        usedAt 0 (pre ++ ⟨b.size, false⟩ :: post) := by
      rw [usedAt_release, usedAt_append]
      rfl
    have hdata := blockData_free rfl ((blockData_congr hfreed).mp hi)
    rw [sizeofStructMem_eq] at hdata
    dsimp only at hdata
    rw [plugHoles, hframe₂ i hi, hframe₁ i ((blockData_congr huse).mp hi), hg]
    exact setUsed_apply (by omega)

/-- What is in front of a free block behind a block in use. -/
theorem blockData_pair {n r i : Nat} (hi : BlockData (pre ++ ⟨n, true⟩ :: ⟨r, false⟩ :: post) i) :
    i < whole pre ∨ (whole pre + 8 ≤ i ∧ i < whole pre + n) ∨ whole pre + n + r + 8 ≤ i := by
  have hlist : pre ++ ⟨n, true⟩ :: ⟨r, false⟩ :: post =
      pre ++ [⟨n, true⟩] ++ ⟨r, false⟩ :: post := by
    simp
  have hwhole : whole (pre ++ [⟨n, true⟩]) = whole pre + n := by simp
  rw [hlist] at hi
  have hdata := blockData_free rfl hi
  rw [hwhole, sizeofStructMem_eq] at hdata
  rcases hdata with ⟨hin, hlt⟩ | hout
  · rcases blockData_append hin with ⟨-, hfront⟩ | hbehind
    · exact .inl hfront
    · rw [sizeofStructMem_eq] at hbehind
      exact .inr (.inl ⟨hbehind, hlt⟩)
  · exact .inr (.inr hout)

/-- The memory after a block in use is cut down to `n` octets. -/
theorem Cut.trim {m : Mem} {n : Nat} {old : List Block} (h : Cut m (pre ++ b :: old ++ post))
    (hused : b.used = true) (hn : leastBlock ≤ n) (hrest : n + leastBlock ≤ whole (b :: old)) :
    Cut (linkBack (whole pre + n)
        (createMem2 (whole pre) (whole pre + n) (whole pre + whole (b :: old)) m))
      (pre ++ ⟨n, true⟩ :: ⟨whole (b :: old) - n, false⟩ :: post) ∧
      ∀ i, BlockData (pre ++ ⟨n, true⟩ :: ⟨whole (b :: old) - n, false⟩ :: post) i →
        linkBack (whole pre + n)
          (createMem2 (whole pre) (whole pre + n) (whole pre + whole (b :: old)) m) i = m i := by
  have hwhole := h.whole_eq
  have hat : (memAt m (whole pre)).used = true := by
    have h' := h
    rw [List.append_assoc, List.cons_append] at h'
    rw [h'.memAt_eq, hused]
  rw [whole_append, whole_append, memSizeAligned_eq] at hwhole
  rw [leastBlock_eq] at hn hrest
  have hins := @inserted_trim m (whole pre) (whole pre + n) (whole pre + whole (b :: old))
    (by omega) (by omega) (by omega) hat
  have hcut := h.insert hins (by rw [leastBlock_eq]; exact hn) (by rw [leastBlock_eq]; exact hrest)
  rw [List.append_assoc] at hcut
  refine ⟨hcut, fun i hi => hins.frame i ?_⟩
  have hdata := blockData_pair hi
  omega

/-- What `mem_trim` does to a block in use, by the block behind it. -/
theorem memTrim_eq {newsize : UInt16} {n : Nat} (hrep : h.Rep (pre ++ b :: post))
    (hn : dataSize newsize + sizeofStructMem = n) (hle : n ≤ b.size) :
    memTrim (whole pre + sizeofStructMem) newsize h =
      (some (whole pre + sizeofStructMem),
        if n = b.size then h
        else if (memAt h.ram (whole pre + b.size)).used = false then
          let next := (memAt h.ram (whole pre + b.size)).next
          decUsed (b.size - n) { h with
            ram := linkBack (whole pre + n) (createMem2 (whole pre) (whole pre + n) next h.ram)
            lfree := if h.lfree = whole pre + b.size then whole pre + n else h.lfree }
        else if n + leastBlock ≤ b.size then
          decUsed (b.size - n) { h with
            ram := linkBack (whole pre + n)
              (createMem2 (whole pre) (whole pre + n) (whole pre + b.size) h.ram)
            lfree := if whole pre + n < h.lfree then whole pre + n else h.lfree }
        else h) := by
  have hbound := hrep.cut.bound
  have hat := hrep.cut.memAt_eq
  have hleast := leastBlock_eq
  have hmin := minSizeAligned_eq
  have hsize := memSizeAligned_eq
  rw [sizeofStructMem_eq] at hn ⊢
  have hdata : u32Sub (memAt h.ram (whole pre)).next (whole pre + 8) % 65536 = b.size - 8 := by
    rw [hat, u32Sub_eq (by simp only; omega)]
    simp only
    omega
  have hsum : whole pre + 8 + dataSize newsize = whole pre + n := by omega
  have hnext : (memAt h.ram (whole pre)).next = whole pre + b.size := by rw [hat]
  have hdiff : b.size - 8 - dataSize newsize = b.size - n := by omega
  have hsame : dataSize newsize = b.size - 8 ↔ n = b.size := by omega
  have hroom : dataSize newsize + 8 + minSizeAligned ≤ b.size - 8 ↔ n + leastBlock ≤ b.size := by
    omega
  rw [memTrim]
  dsimp only
  rw [if_neg (by omega), if_neg (by omega), sizeofStructMem_eq, Nat.add_sub_cancel, hdata,
    if_neg (by omega)]
  simp only [hsame, hnext, hsum, hdiff, hroom, Bool.not_eq_true']
  split
  · rfl
  · split
    · rfl
    · split <;> rfl

/-- A block in use is cut down to what is still asked for. -/
theorem memTrim_spec {newsize : UInt16} (hrep : h.Rep (pre ++ b :: post)) (hused : b.used = true)
    (hle : dataSize newsize + sizeofStructMem ≤ b.size) :
    ∃ h', memTrim (whole pre + sizeofStructMem) newsize h =
        (some (whole pre + sizeofStructMem), h') ∧
      h'.Rep (pre ++ shrink leastBlock (dataSize newsize + sizeofStructMem) b post) ∧
      ∀ i, BlockData (pre ++ shrink leastBlock (dataSize newsize + sizeofStructMem) b post) i →
        h'.ram i = h.ram i := by
  obtain ⟨hmin, hdvd, -, -⟩ := dataSize_spec newsize
  obtain ⟨n, hn⟩ : ∃ n, dataSize newsize + sizeofStructMem = n := ⟨_, rfl⟩
  rw [memTrim_eq hrep hn (hn ▸ hle), hn]
  rw [hn] at hle
  have hnmin : leastBlock ≤ n := by
    rw [← hn, leastBlock]
    omega
  have htidy := hrep.tidy.shrink (n := n) hnmin hle (hn ▸ Nat.dvd_add hdvd (by decide))
  have hfirst := @firstFree_front 0 pre (b :: post)
  have hbound := hrep.cut.bound
  have hpos : ∀ a ∈ pre, 0 < a.size := fun a ha => by
    have := hrep.cut.least_le a (List.mem_append_left _ ha)
    rw [leastBlock_eq] at this
    omega
  have hstats := hrep.stats
  rw [inUse_append, inUse_cons, if_pos hused] at hstats
  have hfree := hrep.lfree
  refine ⟨_, rfl, ?_⟩
  by_cases hne : n = b.size
  · rw [if_pos hne, hne, shrink_self]
    exact ⟨hrep, fun _ _ => rfl⟩
  rw [if_neg hne]
  by_cases hbehind : ∃ size rest, post = ⟨size, false⟩ :: rest
  · obtain ⟨size, post, rfl⟩ := hbehind
    rw [shrink_behind_free hne] at htidy ⊢
    have hnext : (memAt h.ram (whole pre + b.size)) =
        ⟨whole pre + b.size + size, whole pre, false⟩ := by
      have hcut : Cut h.ram (pre ++ [b] ++ ⟨size, false⟩ :: post) := by
        rw [List.append_assoc]
        exact hrep.cut
      have hat := hcut.memAt_eq
      rwa [whole_append, lastAt_concat, whole_cons, whole_nil, Nat.add_zero, Nat.zero_add] at hat
    have hcut : Cut h.ram (pre ++ b :: [⟨size, false⟩] ++ post) := by
      rw [List.append_assoc]
      exact hrep.cut
    have hsize := hrep.cut.least_le ⟨size, false⟩ (List.mem_append_right _ (.tail _ (.head _)))
    have hwhole : whole (b :: [⟨size, false⟩]) = b.size + size := by simp
    have hrest : b.size + size - n = b.size - n + size := by omega
    dsimp only at hsize
    obtain ⟨hnew, hframe⟩ := hcut.trim hused hnmin (by rw [hwhole]; omega)
    rw [hwhole, hrest, ← Nat.add_assoc] at hnew hframe
    rw [hnext, if_pos rfl]
    refine ⟨⟨hnew, htidy, ?_, ?_⟩, hframe⟩
    · have hlt : n < b.size := by omega
      rcases @firstFree_cases 0 _ hpos with hin | ⟨hlow, hin⟩
      · rw [hin, Nat.zero_add] at hfree ⊢
        rw [firstFree, if_pos hused] at hfree
        exact if_pos hfree
      · rw [hin] at hfree ⊢
        rw [← hfree, Nat.zero_add] at hlow
        rw [← hfree]
        exact if_neg (by omega)
    · rw [inUse_append, inUse_cons_used, inUse_cons_free, decUsed]
      rw [inUse_cons_free] at hstats
      dsimp only
      rw [toNat_sub_ofNat (by omega)]
      omega
  · replace hbehind : ∀ size rest, post ≠ ⟨size, false⟩ :: rest := fun size rest heq =>
      hbehind ⟨size, rest, heq⟩
    rw [shrink_behind_used hne hbehind] at htidy ⊢
    have hnext : (memAt h.ram (whole pre + b.size)).used = true := by
      have hcut : Cut h.ram (pre ++ [b] ++ post) := by
        rw [List.append_assoc]
        exact hrep.cut
      cases post with
      | nil =>
          rw [whole_nil, Nat.add_zero] at hbound
          rw [hbound.2]
          exact hrep.cut.ramEnd
      | cons c post =>
          have hat := hcut.memAt_eq
          rw [whole_append, whole_cons, whole_nil, Nat.add_zero] at hat
          rw [hat]
          obtain ⟨size, used⟩ := c
          cases used with
          | true => rfl
          | false => exact absurd rfl (hbehind size post)
    rw [hnext, if_neg Bool.noConfusion]
    split
    next hroom =>
      rw [if_pos hroom] at htidy
      have hcut : Cut h.ram (pre ++ b :: [] ++ post) := by
        rw [List.append_assoc]
        exact hrep.cut
      have hwhole : whole (b :: []) = b.size := by simp
      obtain ⟨hnew, hframe⟩ := hcut.trim hused hnmin (by rw [hwhole]; exact hroom)
      rw [hwhole] at hnew hframe
      refine ⟨⟨hnew, htidy, ?_, ?_⟩, hframe⟩
      · rcases @firstFree_cases 0 _ hpos with hin | ⟨hlow, hin⟩
        · rw [hin, Nat.zero_add] at hfree ⊢
          rw [firstFree, if_pos hused] at hfree
          have hge := @firstFree_ge (whole pre + b.size) post
          exact if_pos (by omega)
        · rw [hin] at hfree ⊢
          rw [← hfree, Nat.zero_add] at hlow
          rw [← hfree]
          exact if_neg (by omega)
      · rw [inUse_append, inUse_cons_used, inUse_cons_free, decUsed]
        dsimp only
        rw [toNat_sub_ofNat (by omega)]
        omega
    next => exact ⟨hrep, fun _ _ => rfl⟩

end Calls

end Adhoc
