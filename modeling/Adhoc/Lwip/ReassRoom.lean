import Adhoc.Lwip.ReassRuns

/-!
# The room for fragments

Whatever fragments come, no more than `IP_REASS_MAX_PBUFS` pbufs are queued for no
more than `MEMP_NUM_REASSDATA` datagrams, and each pbuf that came is accounted for
(`reass_accounts`).

`ip_reass_remove_oldest_datagram` takes for the entry in front of the oldest the
last one that has a next.  The oldest is the last entry of those the fragment does
not belong to, so that is right unless the last entry of all is the fragment's own.
The list breaks exactly there (`reass_list_intact`).
-/

namespace Adhoc

open EventMachine

/-! ## The pbufs -/

/-- Of `n` pbufs that came, each is queued, was passed on or was freed, and no more are queued or
passed on at once than there may be. -/
structure Accounted (s : Reass) (n : Nat) : Prop where
  count : s.pbufcount = queued s.reassdatagrams
  le : s.pbufcount ≤ ipReassMaxPbufs
  length : s.reassdatagrams.length ≤ mempNumReassdata
  passed : ∀ d ∈ s.delivered, d.clen ≤ ipReassMaxPbufs
  balance : s.freed + queued s.reassdatagrams + (s.delivered.map IpDatagram.clen).sum = n

section Accounts

variable {p : IpFragment} {s t : Reass} {r x : ReassData} {front back : List ReassData} {n : Nat}

theorem queued_split (front back : List ReassData) (r : ReassData) :
    queued (front ++ r :: back) = queued (front ++ back) + r.clen := by
  simp only [queued, List.map_append, List.map_cons, List.sum_append, List.sum_cons]
  omega

theorem Accounted.empty : Accounted {} 0 :=
  ⟨rfl, Nat.zero_le _, Nat.zero_le _, nofun, rfl⟩

theorem Accounted.kept {fraghdr : IpHdr} (h : Accounted s n) (hkept : Kept fraghdr s t) :
    Accounted t n where
  count := hkept.pbufcount h.count
  le := Nat.le_trans hkept.le h.le
  length := Nat.le_trans hkept.sublist.length_le h.length
  passed := hkept.delivered ▸ h.passed
  balance := by rw [hkept.freed, hkept.delivered, h.balance]

theorem Accounted.opened (h : Accounted s n) (hopen : Opened p s t) : Accounted t n := by
  cases hopen with
  | own => exact h
  | new hnone hlt =>
      have hqueued : queued ({ iphdr := p.hdr } :: s.reassdatagrams) = queued s.reassdatagrams :=
        Nat.zero_add _
      exact ⟨h.count.trans hqueued.symm, h.le, hlt, h.passed, by rw [hqueued, h.balance]⟩

/-- A fragment that is put among others adds its pbufs to theirs. -/
theorem clen_chained {l : List ReassFrag} {v : Bool}
    (h : chainFragAndValidate (r.noteHeader p.hdr) p.helper = some (l, v)) :
    { r.noteHeader p.hdr with p := l }.clen = r.clen + p.clen := by
  obtain ⟨pre, rest, hsplit, rfl, -⟩ := chainFragAndValidate_spec h
  rw [noteHeader_p] at hsplit
  simp only [ReassData.clen, hsplit, List.map_append, List.map_cons, List.sum_append,
    List.sum_cons]
  change _ + (p.clen + _) = _
  omega

theorem Accounted.take (h : Accounted s n) (hsplit : s.reassdatagrams = front ++ r :: back)
    (hroom : s.pbufcount + p.clen ≤ ipReassMaxPbufs) :
    Accounted (ipReassTake p front.length s) (n + p.clen) := by
  have hcount := h.count
  have hlength := h.length
  have hbalance := h.balance
  rw [hsplit, queued_split] at hcount hbalance
  rw [hsplit, List.length_append, List.length_cons] at hlength
  have hlength' {x : ReassData} : (front ++ x :: back).length ≤ mempNumReassdata := by
    rwa [List.length_append, List.length_cons]
  obtain ⟨-, heq⟩ | ⟨frags, hsome, heq⟩ | ⟨frags, hsome, heq⟩ := ipReassTake_cases (p := p) hsplit
  · rw [heq]
    have hclen : (r.noteHeader p.hdr).clen = r.clen := by rw [ReassData.clen, noteHeader_p]; rfl
    refine ⟨?_, h.le, hlength', h.passed, ?_⟩
    · rw [queued_split, hclen]
      exact hcount
    · rw [queued_split, hclen]
      dsimp only
      omega
  · rw [heq]
    have hclen := clen_chained hsome
    refine ⟨?_, hroom, hlength', h.passed, ?_⟩
    · rw [queued_split, hclen]
      dsimp only
      omega
    · rw [queued_split, hclen]
      dsimp only
      omega
  · rw [heq]
    have hclen : { r.noteHeader p.hdr with p := frags }.datagram.clen = r.clen + p.clen :=
      clen_chained hsome
    refine ⟨?_, Nat.le_trans (Nat.sub_le _ _) hroom, ?_, ?_, ?_⟩
    · dsimp only
      rw [hclen]
      omega
    · dsimp only
      rw [List.length_append]
      omega
    · refine List.forall_mem_append.mpr ⟨h.passed, List.forall_mem_singleton.mpr ?_⟩
      rw [hclen]
      omega
    · rw [List.map_append, List.sum_append, List.map_singleton, List.sum_singleton, hclen]
      dsimp only
      omega

theorem Accounted.ipReass (h : Accounted s n) (hstep : ipReass p s = some t) :
    Accounted t (n + p.clen) := by
  obtain ⟨u, hkept, ⟨rfl, -⟩ | ⟨w, front, r, back, hopen, hsplit, -, hroom, rfl, -⟩⟩ :=
    ipReass_cases hstep
  · have hu := h.kept hkept
    refine ⟨hu.count, hu.le, hu.length, hu.passed, ?_⟩
    have hbalance := hu.balance
    unfold Reass.drop
    dsimp only
    omega
  · exact ((h.kept hkept).opened hopen).take hsplit hroom

theorem Accounted.tmr (h : Accounted s n) : Accounted (ipReassTmr s) n := by
  have hsplit : queued s.reassdatagrams = queued (s.reassdatagrams.filter fun r => r.timer ≠ 0) +
      ((s.reassdatagrams.filter fun r => r.timer = 0).map ReassData.clen).sum := by
    generalize s.reassdatagrams = l
    induction l with
    | nil => rfl
    | cons r l ih =>
        rw [queued, List.map_cons, List.sum_cons]
        change r.clen + queued l = _
        by_cases hr : r.timer = 0
        · rw [ih, List.filter_cons_of_neg (by simpa using hr),
            List.filter_cons_of_pos (by simpa using hr), List.map_cons, List.sum_cons]
          omega
        · rw [ih, List.filter_cons_of_pos (by simpa using hr),
            List.filter_cons_of_neg (by simpa using hr)]
          exact (Nat.add_assoc ..).symm
  have htick : queued (ipReassTmr s).reassdatagrams =
      queued (s.reassdatagrams.filter fun r => r.timer ≠ 0) := by
    rw [tmr_reassdatagrams, queued, List.map_map]
    rfl
  have hcount := h.count
  have hbalance := h.balance
  refine ⟨?_, Nat.le_trans (Nat.sub_le _ _) h.le, ?_, h.passed, ?_⟩
  · rw [htick]
    unfold ipReassTmr
    dsimp only
    omega
  · rw [tmr_reassdatagrams, List.length_map]
    exact Nat.le_trans (List.length_filter_le _ _) h.length
  · rw [htick]
    unfold ipReassTmr
    dsimp only
    omega

end Accounts

/-! ## The list -/

/-- The entries are in the order they came in, the newest in front, each of another datagram, and
each has a fragment. -/
structure Orderly (s : Reass) : Prop where
  timers : s.reassdatagrams.Pairwise fun a b => b.timer ≤ a.timer
  age : ∀ r ∈ s.reassdatagrams, r.timer ≤ ipReassMaxage
  nodup : (s.reassdatagrams.map fun r => r.iphdr.key).Nodup
  ne : ∀ r ∈ s.reassdatagrams, 0 < r.clen

/-- The last entry is that of the fragment, and there are two more. -/
def LastIsOwn (fraghdr : IpHdr) (l : List ReassData) : Prop :=
  3 ≤ l.length ∧ ∃ r ∈ l.getLast?, ipAddressesAndIdMatch r.iphdr fraghdr = true

instance (fraghdr : IpHdr) (l : List ReassData) : Decidable (LastIsOwn fraghdr l) :=
  decidable_of_iff
    (3 ≤ l.length ∧ l.getLast?.any (fun r => ipAddressesAndIdMatch r.iphdr fraghdr) = true)
    (by simp [LastIsOwn, Option.any_eq_true])

section Intact

variable {fraghdr : IpHdr} {p : IpFragment} {s t u : Reass} {r x : ReassData}
  {l front back : List ReassData} {i k : Nat} {o : Option (Nat × ReassData)}

theorem Orderly.kept (h : Orderly s) (hkept : Kept fraghdr s t) : Orderly t where
  timers := h.timers.sublist hkept.sublist
  age r hr := h.age r (hkept.sublist.subset hr)
  nodup := h.nodup.sublist (hkept.sublist.map _)
  ne r hr := h.ne r (hkept.sublist.subset hr)

theorem findOldest_append (i : Nat) (o : Option (Nat × ReassData)) (front back : List ReassData) :
    findOldest fraghdr i o (front ++ back) =
      findOldest fraghdr (i + front.length) (findOldest fraghdr i o front) back := by
  induction front generalizing i o with
  | nil => rfl
  | cons r front ih =>
      have hplace : i + 1 + front.length = i + (r :: front).length := by
        rw [List.length_cons]
        omega
      simp only [List.cons_append, findOldest]
      split
      · rw [ih, hplace]
      · split <;> rw [ih, hplace]

/-- The last entry is the oldest, when the fragment does not belong to it. -/
theorem findOldest_last
    (htimers : (front ++ [r]).Pairwise fun a b => b.timer ≤ a.timer)
    (hother : ipAddressesAndIdMatch r.iphdr fraghdr = false) :
    findOldest fraghdr 0 none (front ++ [r]) = some (front.length, r) := by
  rw [findOldest_append, Nat.zero_add]
  cases hfront : findOldest fraghdr 0 none front with
  | none => simp [findOldest, hother]
  | some oldest =>
      obtain ⟨j, y⟩ := oldest
      obtain hnone | ⟨-, hget, -⟩ := findOldest_spec hfront
      · cases hnone
      · have hle := (List.pairwise_append.mp htimers).2.2 y (List.mem_of_getElem? hget) r (.head _)
        simp [findOldest, hother, hle]

theorem findOldest_own (hmatch : ipAddressesAndIdMatch r.iphdr fraghdr = true) :
    findOldest fraghdr 0 none (front ++ [r]) = findOldest fraghdr 0 none front := by
  rw [findOldest_append]
  simp [findOldest, hmatch]

theorem dequeue_last (front : List ReassData) (r : ReassData) :
    ∃ l, ipReassDequeueDatagram front.length (lastWithNext (front ++ [r])) (front ++ [r]) =
      some l := by
  cases front with
  | nil => exact ⟨_, rfl⟩
  | cons x front =>
      refine ⟨(x :: front ++ [r]).eraseIdx (x :: front).length, ?_⟩
      have hlen : (x :: front ++ [r]).length = front.length + 2 := by simp
      rw [lastWithNext, hlen, if_neg (by omega), ipReassDequeueDatagram, List.length_cons,
        if_neg (Nat.succ_ne_zero _)]
      exact if_pos rfl

/-- The entry in front of the last one is not found, but at the head of the list. -/
theorem dequeue_own (front : List ReassData) (x r : ReassData) :
    (∃ l, ipReassDequeueDatagram front.length (lastWithNext (front ++ [x, r])) (front ++ [x, r]) =
      some l) ↔ front = [] := by
  cases front with
  | nil => exact iff_of_true ⟨_, rfl⟩ rfl
  | cons y front =>
      refine iff_of_false ?_ (List.cons_ne_nil _ _)
      rintro ⟨l, hl⟩
      have hlen : (y :: front ++ [x, r]).length = front.length + 3 := by simp
      rw [lastWithNext, hlen, if_neg (by omega), ipReassDequeueDatagram, List.length_cons,
        if_neg (Nat.succ_ne_zero _)] at hl
      rw [if_neg (by omega)] at hl
      exact nomatch hl

/-- One datagram makes room for one pbuf. -/
theorem removeOldest_of_find (hfind : findOldest fraghdr 0 none s.reassdatagrams = some (i, r))
    (hr : 0 < r.clen) :
    (∃ x, ipReassRemoveOldestDatagram fraghdr 1 s = some x) ↔
      ∃ l, ipReassDequeueDatagram i (lastWithNext s.reassdatagrams) s.reassdatagrams = some l := by
  have henough : r.clen ≠ 0 := Nat.ne_of_gt hr
  simp only [ipReassRemoveOldestDatagram, removeOldestLoop, hfind]
  cases hdequeue : ipReassDequeueDatagram i (lastWithNext s.reassdatagrams) s.reassdatagrams with
  | none => simp [ipReassFreeCompleteDatagram, hdequeue]
  | some l => simp [ipReassFreeCompleteDatagram, hdequeue, henough]

theorem Orderly.removeOldest_iff (h : Orderly s) :
    (∃ x, ipReassRemoveOldestDatagram fraghdr 1 s = some x) ↔
      ¬ LastIsOwn fraghdr s.reassdatagrams := by
  rcases List.eq_nil_or_concat s.reassdatagrams with hl | ⟨front, r, hl⟩
  · rw [ipReassRemoveOldestDatagram, removeOldestLoop, hl]
    exact iff_of_true ⟨_, rfl⟩ fun hown => absurd hown.1 (by simp)
  · rw [List.concat_eq_append] at hl
    have hr : r ∈ s.reassdatagrams := hl ▸ List.mem_append_right _ (.head _)
    cases hmatch : ipAddressesAndIdMatch r.iphdr fraghdr with
    | false =>
        have hfind := findOldest_last (hl ▸ h.timers) hmatch
        rw [← hl] at hfind
        refine iff_of_true ((removeOldest_of_find hfind (h.ne r hr)).mpr ?_) ?_
        · rw [hl]
          exact dequeue_last front r
        · rintro ⟨-, x, hx, hxmatch⟩
          rw [hl, List.getLast?_concat, Option.mem_some_iff] at hx
          exact absurd (hmatch.symm.trans (hx ▸ hxmatch)) Bool.false_ne_true
    | true =>
        have hother : ∀ x ∈ front, ipAddressesAndIdMatch x.iphdr fraghdr = false := by
          intro x hx
          by_contra hxmatch
          have hkey := (match_iff.mp (Bool.not_eq_false _ ▸ hxmatch)).trans
            (match_iff.mp hmatch).symm
          have hnodup := h.nodup
          rw [hl, List.map_append, List.nodup_append] at hnodup
          exact hnodup.2.2 _ (List.mem_map_of_mem hx) _ (.head _) hkey
        have hown : LastIsOwn fraghdr s.reassdatagrams ↔ 2 ≤ front.length := by
          rw [LastIsOwn, hl, List.getLast?_concat, List.length_append, List.length_singleton]
          exact ⟨fun h => by omega, fun h => ⟨by omega, r, rfl, hmatch⟩⟩
        have hfind := @findOldest_own _ _ front hmatch
        rw [← hl] at hfind
        rw [hown]
        rcases List.eq_nil_or_concat front with rfl | ⟨front, x, rfl⟩
        · rw [ipReassRemoveOldestDatagram, removeOldestLoop, hfind]
          exact iff_of_true ⟨_, rfl⟩ (by simp)
        · rw [List.concat_eq_append] at *
          have htimers := h.timers
          rw [hl] at htimers
          rw [findOldest_last (List.pairwise_append.mp htimers).1
            (hother x (List.mem_append_right _ (.head _)))] at hfind
          have hx : x ∈ s.reassdatagrams := by simp [hl]
          rw [removeOldest_of_find hfind (h.ne x hx), hl, List.append_assoc]
          rw [show [x] ++ [r] = [x, r] from rfl, dequeue_own, List.length_append,
            List.length_singleton, ← List.length_eq_zero_iff]
          omega

/-- Where there is no room, a fragment does not come for the last of three or more datagrams. -/
def Unbroken (s : Reass) : ReassEvent → Prop
  | .fragment p =>
      p.hdr.hl = 5 → ipReassMaxPbufs ≤ s.pbufcount → ¬ LastIsOwn p.hdr s.reassdatagrams
  | .tmr => True

/-- A fragment is in one pbuf, as those of a pool are that are no longer than a frame. -/
def OnePbuf : ReassEvent → Prop
  | .fragment p => p.clen = 1
  | .tmr => True

theorem hlen_iff (h : IpHdr) : h.hl.toNat * 4 = ipHlen ↔ h.hl = 5 := by
  rw [← UInt8.toNat_inj]
  change h.hl.toNat * 4 = 20 ↔ h.hl.toNat = 5
  omega

theorem Orderly.makeRoom_iff (h : Orderly s) (hclen : p.clen = 1) :
    (∃ x, makeRoom p s = some x) ↔
      (ipReassMaxPbufs ≤ s.pbufcount → ¬ LastIsOwn p.hdr s.reassdatagrams) := by
  rw [makeRoom, hclen]
  split
  next hfull =>
    rw [← h.removeOldest_iff]
    simp only [Option.map_eq_some_iff]
    refine ⟨fun ⟨_, x, hx, _⟩ _ => ⟨x, hx⟩, fun hall => ?_⟩
    obtain ⟨x, hx⟩ := hall (by omega)
    exact ⟨_, x, hx, rfl⟩
  next hroom => exact iff_of_true ⟨_, rfl⟩ fun hle => absurd hle (by omega)

/-- The list breaks only where room is made for the pbufs. -/
theorem Orderly.ipReass_iff (h : Orderly s) (hclen : p.clen = 1) :
    (∃ t, ipReass p s = some t) ↔ Unbroken s (.fragment p) := by
  rw [Unbroken, ← hlen_iff, ipReass]
  split
  next hhl => exact iff_of_true ⟨_, rfl⟩ fun heq => absurd heq hhl
  next hhl =>
    rw [not_not] at hhl
    rw [← h.makeRoom_iff hclen]
    constructor
    · rintro ⟨t, ht⟩ -
      obtain ⟨x, hx, -⟩ := Option.bind_eq_some_iff.mp ht
      exact ⟨x, hx⟩
    · intro hall
      obtain ⟨⟨room, u⟩, hmake⟩ := hall hhl
      rw [hmake, Option.bind_some]
      have hu := h.kept (makeRoom_spec hmake).1
      dsimp only
      split
      · exact ⟨_, rfl⟩
      · split
        next => exact ⟨_, rfl⟩
        next hfind =>
          have hnone : ∀ r ∈ u.reassdatagrams, ipAddressesAndIdMatch r.iphdr p.hdr = false := by
            simpa using hfind
          obtain ⟨x, hx⟩ : ∃ x, ipReassEnqueueNewDatagram p.hdr p.clen u = some x := by
            rw [ipReassEnqueueNewDatagram, hclen]
            dsimp only
            split
            · exact ⟨_, rfl⟩
            · obtain ⟨x, hx⟩ := hu.removeOldest_iff.mpr fun ⟨_, r, hr, hmatch⟩ =>
                absurd ((hnone r (List.mem_of_getLast? hr)).symm.trans hmatch) Bool.false_ne_true
              exact ⟨_, by rw [hx, Option.map_some]⟩
          exact ⟨_, by rw [hx, Option.map_some]⟩

/-- The entry a fragment is taken into is in its place, whether it is new or not. -/
theorem Orderly.opened (h : Orderly s) (hopen : Opened p s t)
    (hsplit : t.reassdatagrams = front ++ r :: back)
    (hmatch : ipAddressesAndIdMatch r.iphdr p.hdr = true) :
    t.reassdatagrams.Pairwise (fun a b => b.timer ≤ a.timer) ∧
      (∀ x ∈ t.reassdatagrams, x.timer ≤ ipReassMaxage) ∧
      (t.reassdatagrams.map fun x => x.iphdr.key).Nodup ∧
      (∀ x ∈ front ++ back, 0 < x.clen) ∧ (r.p = [] ∨ 0 < r.clen) := by
  cases hopen with
  | own =>
      rw [hsplit]
      have hne := hsplit ▸ h.ne
      refine ⟨hsplit ▸ h.timers, hsplit ▸ h.age, hsplit ▸ h.nodup, fun x hx => hne x ?_,
        .inr (hne r (List.mem_append_right _ (.head _)))⟩
      rw [List.mem_append] at hx ⊢
      exact hx.imp_right (.tail _)
  | new hnone hlt =>
      obtain ⟨rfl, rfl, rfl⟩ : front = [] ∧ r = { iphdr := p.hdr } ∧ back = s.reassdatagrams := by
        cases front with
        | nil => exact ⟨rfl, (List.cons.inj hsplit).1.symm, (List.cons.inj hsplit).2.symm⟩
        | cons x front =>
            have hr : r ∈ s.reassdatagrams :=
              (List.cons.inj hsplit).2 ▸ List.mem_append_right _ (.head _)
            exact absurd ((hnone r hr).symm.trans hmatch) Bool.false_ne_true
      refine ⟨List.pairwise_cons.mpr ⟨h.age, h.timers⟩,
        List.forall_mem_cons.mpr ⟨Nat.le_refl _, h.age⟩,
        List.nodup_cons.mpr ⟨fun hmem => ?_, h.nodup⟩, h.ne, .inl rfl⟩
      obtain ⟨x, hx, hkey⟩ := List.mem_map.mp hmem
      exact absurd ((hnone x hx).symm.trans (match_iff.mpr hkey)) Bool.false_ne_true

/-- An entry that a fragment has been put into takes the place of the one there was. -/
theorem Orderly.replace
    (htimers : (front ++ r :: back).Pairwise fun a b => b.timer ≤ a.timer)
    (hage : ∀ y ∈ front ++ r :: back, y.timer ≤ ipReassMaxage)
    (hnodup : ((front ++ r :: back).map fun y => y.iphdr.key).Nodup)
    (hne : ∀ y ∈ front ++ back, 0 < y.clen) (hx : 0 < x.clen) (htimer : x.timer = r.timer)
    (hkey : x.iphdr.key = r.iphdr.key) (ht : t.reassdatagrams = front ++ x :: back) :
    Orderly t := by
  simp only [List.pairwise_append, List.pairwise_cons, List.forall_mem_append,
    List.forall_mem_cons] at htimers hage hne
  refine ⟨?_, ?_, ?_, ?_⟩
  · rw [ht]
    simp only [List.pairwise_append, List.pairwise_cons, List.forall_mem_cons]
    rw [htimer]
    exact htimers
  · rw [ht]
    simp only [List.forall_mem_append, List.forall_mem_cons]
    exact ⟨hage.1, htimer ▸ hage.2.1, hage.2.2⟩
  · rw [ht, List.map_append, List.map_cons, hkey]
    rwa [List.map_append, List.map_cons] at hnodup
  · rw [ht]
    simp only [List.forall_mem_append, List.forall_mem_cons]
    exact ⟨hne.1, hx, hne.2⟩

@[simp] theorem noteHeader_timer (h : IpHdr) (r : ReassData) :
    (r.noteHeader h).timer = r.timer := by
  unfold ReassData.noteHeader
  by_cases hmf : h.offset &&& ipMf = 0 <;> simp [hmf]

theorem Orderly.ipReass (h : Orderly s) (hclen : p.clen = 1) (hstep : ipReass p s = some t) :
    Orderly t := by
  obtain ⟨u, hkept, ⟨rfl, -⟩ | ⟨w, front, r, back, hopen, hsplit, hmatch, -, rfl, -⟩⟩ :=
    ipReass_cases hstep
  · exact ⟨(h.kept hkept).timers, (h.kept hkept).age, (h.kept hkept).nodup, (h.kept hkept).ne⟩
  · obtain ⟨htimers, hage, hnodup, hne, hr⟩ := (h.kept hkept).opened hopen hsplit hmatch
    have hkey := match_iff.mp hmatch
    rw [hsplit] at htimers hage hnodup
    obtain ⟨hnone, heq⟩ | ⟨frags, hsome, heq⟩ | ⟨frags, hsome, heq⟩ := ipReassTake_cases hsplit
    · rw [heq]
      have hclen' : (r.noteHeader p.hdr).clen = r.clen := by rw [ReassData.clen, noteHeader_p]; rfl
      refine Orderly.replace htimers hage hnodup hne ?_ (noteHeader_timer _ _) (noteHeader_key hkey)
        rfl
      rw [hclen']
      refine hr.resolve_left fun hnil => ?_
      rw [chainFragAndValidate, noteHeader_p, hnil] at hnone
      cases hnone
    · rw [heq]
      refine Orderly.replace (x := { r.noteHeader p.hdr with p := frags }) htimers hage hnodup hne
        ?_ (noteHeader_timer _ _) (noteHeader_key hkey) rfl
      rw [clen_chained hsome]
      omega
    · rw [heq]
      have hsub : (front ++ back).Sublist (front ++ r :: back) :=
        .append_left (List.sublist_cons_self _ _) _
      exact ⟨htimers.sublist hsub, fun x hx => hage x (hsub.subset hx), hnodup.sublist (hsub.map _),
        hne⟩

theorem Orderly.tmr (h : Orderly s) : Orderly (ipReassTmr s) := by
  have hsub := List.filter_sublist (p := fun r => decide (r.timer ≠ 0)) (l := s.reassdatagrams)
  refine ⟨?_, fun r hr => ?_, ?_, fun r hr => ?_⟩
  · rw [tmr_reassdatagrams, List.pairwise_map]
    exact (h.timers.sublist hsub).imp fun hle => Nat.sub_le_sub_right hle 1
  · obtain ⟨x, hx, rfl⟩ := List.mem_map.mp hr
    exact Nat.le_trans (Nat.sub_le _ _) (h.age x (hsub.subset hx))
  · rw [tmr_reassdatagrams, List.map_map]
    exact h.nodup.sublist (hsub.map _)
  · obtain ⟨x, hx, rfl⟩ := List.mem_map.mp hr
    exact h.ne x (hsub.subset hx)

theorem Orderly.empty : Orderly {} := ⟨.nil, nofun, .nil, nofun⟩

/-- From an orderly list a run goes on exactly while no fragment breaks it. -/
theorem Orderly.exists_run_iff {es : List ReassEvent} (h : Orderly s)
    (hone : ∀ e ∈ es, OnePbuf e) :
    (∃ t, reassMachine.run s es = some t) ↔ reassMachine.Meets Unbroken s es := by
  refine Machine.exists_run_iff_meets (J := Orderly) (fun s e t h he hstep => ?_)
    (fun s e h he => ?_) hone h
  · cases e with
    | fragment p => exact h.ipReass he hstep
    | tmr =>
        obtain rfl := Option.some.inj hstep
        exact h.tmr
  · cases e with
    | fragment p => exact h.ipReass_iff he
    | tmr => exact iff_of_true ⟨_, rfl⟩ trivial

end Intact

section Runs

variable {es : List ReassEvent} {s t : Reass} {n : Nat}

theorem Accounted.run (h : Accounted s n) (hrun : reassMachine.run s es = some t) :
    Accounted t (n + ((es.filterMap ReassEvent.frag?).map IpFragment.clen).sum) := by
  induction es generalizing s n with
  | nil => exact Option.some.inj hrun ▸ h
  | cons e es ih =>
      obtain ⟨u, hu, hrest⟩ := Machine.run_cons.mp hrun
      cases e with
      | fragment p =>
          have hbehind := ih (h.ipReass hu) hrest
          rwa [Nat.add_assoc] at hbehind
      | tmr =>
          obtain rfl := Option.some.inj hu
          exact ih h.tmr hrest

/-- Every pbuf that came is queued, was passed on with its datagram or was freed, and there are
never more in the queue, nor more datagrams, than there may be. -/
theorem reass_accounts (hrun : reassMachine.run {} es = some t) :
    Accounted t ((es.filterMap ReassEvent.frag?).map IpFragment.clen).sum := by
  simpa using Accounted.empty.run hrun

/-- Three datagrams, the first of which takes all the room that the others leave. -/
def crowdedRun : List ReassEvent :=
  .fragment (sampleFragment 1 0x2000 [0]) :: .fragment (sampleFragment 2 0x2000 [1]) ::
    .fragment (sampleFragment 3 0x2000 [2]) ::
      (List.range 7).map fun i => .fragment (sampleFragment 1 (0x2001 + .ofNat i) [3])

/-- The pbufs of the first datagram are freed for the fourth. -/
theorem reass_accounts_crowded : ∃ t,
    reassMachine.run {} (crowdedRun ++ [.fragment (sampleFragment 4 0x2000 [5])]) = some t ∧
      t.freed = 8 ∧ Accounted t 11 := by
  obtain ⟨t, hrun, hfreed⟩ : ∃ t, reassMachine.run {}
      (crowdedRun ++ [.fragment (sampleFragment 4 0x2000 [5])]) = some t ∧ t.freed = 8 := by
    exact ⟨_, rfl, by decide⟩
  exact ⟨t, hrun, hfreed, reass_accounts hrun⟩

/-- The list of datagrams stays whole exactly while no fragment comes for the last of three or more
when there is no room. -/
theorem reass_list_intact (hone : ∀ e ∈ es, OnePbuf e) :
    (∃ t, reassMachine.run {} es = some t) ↔ reassMachine.Meets Unbroken {} es :=
  Orderly.empty.exists_run_iff hone

instance (s : Reass) : (e : ReassEvent) → Decidable (Unbroken s e)
  | .fragment _ => inferInstanceAs (Decidable (_ → _))
  | .tmr => .isTrue trivial

instance : (e : ReassEvent) → Decidable (OnePbuf e)
  | .fragment p => inferInstanceAs (Decidable (p.clen = 1))
  | .tmr => .isTrue trivial

/-- Another fragment of the first one breaks the list, but none of a fourth. -/
theorem reass_list_intact_crowded :
    (¬ ∃ t, reassMachine.run {}
        (crowdedRun ++ [.fragment (sampleFragment 1 0x2008 [4])]) = some t) ∧
      ∃ t, reassMachine.run {} (crowdedRun ++ [.fragment (sampleFragment 4 0x2000 [5])]) =
        some t := by
  exact ⟨(reass_list_intact (by decide)).not.mpr (by decide),
    (reass_list_intact (by decide)).mpr (by decide)⟩

end Runs

end Adhoc
