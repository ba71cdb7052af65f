import Adhoc.Lwip.Chaining

/-!
# What is put together

Whatever order the fragments come in, with whatever other datagrams between them,
what `ip_reass` passes on is what was sent, but for a fragment that makes a
datagram whole without joining the one in front of it.  A datagram is passed on once
all of its fragments have come and none had to be freed (`reass_delivers`).
-/

namespace Adhoc

open EventMachine Pieces

/-! ## What making room leaves -/

/-- The pbufs that are queued. -/
def queued (l : List ReassData) : Nat := (l.map ReassData.clen).sum

/-- Some datagrams have been freed, but not the one the fragment belongs to. -/
structure Kept (fraghdr : IpHdr) (s t : Reass) : Prop where
  sublist : t.reassdatagrams.Sublist s.reassdatagrams
  own : ∀ r ∈ s.reassdatagrams, ipAddressesAndIdMatch r.iphdr fraghdr = true → r ∈ t.reassdatagrams
  delivered : t.delivered = s.delivered
  freed : t.freed + queued t.reassdatagrams = s.freed + queued s.reassdatagrams
  pbufcount : s.pbufcount = queued s.reassdatagrams → t.pbufcount = queued t.reassdatagrams
  le : t.pbufcount ≤ s.pbufcount

section Room

variable {fraghdr : IpHdr} {p : IpFragment} {s t u : Reass} {r : ReassData} {i n : Nat}

theorem Kept.refl (fraghdr : IpHdr) (s : Reass) : Kept fraghdr s s :=
  ⟨.refl _, fun _ h _ => h, rfl, rfl, fun h => h, Nat.le_refl _⟩

theorem Kept.trans (h : Kept fraghdr s t) (h' : Kept fraghdr t u) : Kept fraghdr s u :=
  ⟨h'.sublist.trans h.sublist, fun r hr hmatch => h'.own r (h.own r hr hmatch) hmatch,
    h'.delivered.trans h.delivered, h'.freed.trans h.freed, fun hs => h'.pbufcount (h.pbufcount hs),
    Nat.le_trans h'.le h.le⟩

theorem exists_split_at {l : List ReassData} (h : l[i]? = some r) :
    ∃ front back, l = front ++ r :: back ∧ front.length = i := by
  obtain ⟨hlt, rfl⟩ := List.getElem?_eq_some_iff.mp h
  refine ⟨l.take i, l.drop (i + 1), ?_, List.length_take_of_le (Nat.le_of_lt hlt)⟩
  rw [← List.drop_eq_getElem_cons hlt, List.take_append_drop]

theorem eraseIdx_split (front back : List ReassData) (r : ReassData) :
    (front ++ r :: back).eraseIdx front.length = front ++ back := by
  rw [List.eraseIdx_append_of_length_le (Nat.le_refl _), Nat.sub_self, List.eraseIdx_cons_zero]

/-- The oldest datagram is an entry the fragment does not belong to. -/
theorem findOldest_spec {o : Option (Nat × ReassData)} {l : List ReassData} {j : Nat}
    (h : findOldest fraghdr i o l = some (j, r)) :
    o = some (j, r) ∨
      i ≤ j ∧ l[j - i]? = some r ∧ ipAddressesAndIdMatch r.iphdr fraghdr = false := by
  induction l generalizing i o with
  | nil => exact .inl h
  | cons x l ih =>
      have hbehind {o' : Option (Nat × ReassData)}
          (hrec : findOldest fraghdr (i + 1) o' l = some (j, r))
          (ho : o' = some (j, r) → o = some (j, r) ∨
            i ≤ j ∧ (x :: l)[j - i]? = some r ∧ ipAddressesAndIdMatch r.iphdr fraghdr = false) :
          o = some (j, r) ∨
            i ≤ j ∧ (x :: l)[j - i]? = some r ∧ ipAddressesAndIdMatch r.iphdr fraghdr = false := by
        rcases ih hrec with ho' | ⟨hle, hget, hmatch⟩
        · exact ho ho'
        · refine .inr ⟨by omega, ?_, hmatch⟩
          rw [show j - i = j - (i + 1) + 1 by omega, List.getElem?_cons_succ]
          exact hget
      unfold findOldest at h
      split at h
      next => exact hbehind h .inl
      next hmatch =>
        have hmatch' : ipAddressesAndIdMatch x.iphdr fraghdr = false := Bool.not_eq_true _ ▸ hmatch
        have hhere (heq : some (i, x) = some (j, r)) : o = some (j, r) ∨
            i ≤ j ∧ (x :: l)[j - i]? = some r ∧ ipAddressesAndIdMatch r.iphdr fraghdr = false := by
          obtain ⟨rfl, rfl⟩ := Prod.mk.inj (Option.some.inj heq)
          exact .inr ⟨Nat.le_refl _, by rw [Nat.sub_self]; rfl, hmatch'⟩
        cases o with
        | none => exact hbehind h hhere
        | some o =>
            refine hbehind h fun heq => ?_
            split at heq
            · exact hhere heq
            · exact .inl heq

theorem dequeue_eq_eraseIdx {l l' : List ReassData} {prev : Option Nat}
    (h : ipReassDequeueDatagram i prev l = some l') : l' = l.eraseIdx i := by
  unfold ipReassDequeueDatagram at h
  split at h
  next hzero =>
    obtain rfl := Option.some.inj h
    rw [hzero, List.eraseIdx_zero]
  next =>
    split at h
    · obtain ⟨-, heq⟩ := Option.ite_none_right_eq_some.mp h
      exact (Option.some.inj heq).symm
    · exact nomatch h

theorem kept_freeCompleteDatagram {prev : Option Nat} (hget : s.reassdatagrams[i]? = some r)
    (hother : ipAddressesAndIdMatch r.iphdr fraghdr = false)
    (h : ipReassFreeCompleteDatagram i r prev s = some (n, t)) :
    Kept fraghdr s t ∧ n = r.clen ∧ t.reassdatagrams.length + 1 = s.reassdatagrams.length := by
  obtain ⟨l, hdequeue, heq⟩ := Option.map_eq_some_iff.mp h
  obtain ⟨rfl, rfl⟩ := Prod.mk.inj heq
  obtain rfl := dequeue_eq_eraseIdx hdequeue
  obtain ⟨front, back, hsplit, rfl⟩ := exists_split_at hget
  have herase : s.reassdatagrams.eraseIdx front.length = front ++ back := by
    rw [hsplit, eraseIdx_split]
  have hqueued : queued s.reassdatagrams = queued (front ++ back) + r.clen := by
    rw [hsplit]
    simp only [queued, List.map_append, List.map_cons, List.sum_append, List.sum_cons]
    omega
  refine ⟨⟨List.eraseIdx_sublist .., fun x hx hmatch => ?_, rfl, ?_, fun hcount => ?_,
    Nat.sub_le _ _⟩, rfl, ?_⟩
  · rw [hsplit] at hx
    change x ∈ s.reassdatagrams.eraseIdx front.length
    rw [herase]
    rcases List.mem_append.mp hx with hx | hx
    · exact List.mem_append_left _ hx
    · rcases List.mem_cons.mp hx with rfl | hx
      · exact absurd (hother.symm.trans hmatch) Bool.false_ne_true
      · exact List.mem_append_right _ hx
  · change s.freed + r.clen + queued (s.reassdatagrams.eraseIdx front.length) = _
    rw [herase, hqueued]
    omega
  · change s.pbufcount - r.clen = queued (s.reassdatagrams.eraseIdx front.length)
    rw [herase, hcount, hqueued, Nat.add_sub_cancel]
  · change (s.reassdatagrams.eraseIdx front.length).length + 1 = s.reassdatagrams.length
    rw [herase, hsplit, List.length_append, List.length_append, List.length_cons]
    rfl

theorem kept_removeOldestLoop {needed k freed : Nat}
    (h : removeOldestLoop fraghdr needed k freed s = some (n, t)) : Kept fraghdr s t := by
  induction k generalizing freed s with
  | zero =>
      obtain ⟨-, rfl⟩ := Prod.mk.inj (Option.some.inj h)
      exact .refl _ _
  | succ k ih =>
      rw [removeOldestLoop] at h
      split at h
      next =>
        obtain ⟨-, rfl⟩ := Prod.mk.inj (Option.some.inj h)
        exact .refl _ _
      next j oldest hfind =>
        obtain ⟨⟨current, u⟩, hfree, hrest⟩ := Option.bind_eq_some_iff.mp h
        rcases findOldest_spec hfind with hnone | ⟨-, hget, hother⟩
        · exact nomatch hnone
        · rw [Nat.sub_zero] at hget
          obtain ⟨hkept, -, -⟩ := kept_freeCompleteDatagram hget hother hfree
          dsimp only at hrest
          split at hrest
          · exact hkept.trans (ih hrest)
          · obtain ⟨-, rfl⟩ := Prod.mk.inj (Option.some.inj hrest)
            exact hkept

/-- There is room for the fragment without freeing anything. -/
def Roomy (p : IpFragment) (s : Reass) : Prop :=
  s.pbufcount + p.clen ≤ ipReassMaxPbufs ∧
    (s.reassdatagrams.length < mempNumReassdata ∨
      ∃ r ∈ s.reassdatagrams, ipAddressesAndIdMatch r.iphdr p.hdr = true)

/-- Whether there is room for the pbufs of the fragment, at least after some have been freed. -/
def roomMade (p : IpFragment) (s : Reass) : Bool := (makeRoom p s).any Prod.fst

theorem makeRoom_spec {room : Bool} (h : makeRoom p s = some (room, t)) :
    Kept p.hdr s t ∧ (room = true → t.pbufcount + p.clen ≤ ipReassMaxPbufs) ∧
      (s.pbufcount + p.clen ≤ ipReassMaxPbufs → room = true ∧ t = s) := by
  unfold makeRoom at h
  split at h
  next hfull =>
    obtain ⟨⟨freed, u⟩, hremove, heq⟩ := Option.map_eq_some_iff.mp h
    obtain ⟨rfl, rfl⟩ := Prod.mk.inj heq
    refine ⟨kept_removeOldestLoop hremove, fun hroom => ?_, fun hle => by omega⟩
    rw [Bool.and_eq_true, decide_eq_true_eq, decide_eq_true_eq] at hroom
    exact hroom.2
  next hroom =>
    obtain ⟨rfl, rfl⟩ := Prod.mk.inj (Option.some.inj h)
    exact ⟨.refl _ _, fun _ => Nat.le_of_not_lt hroom, fun _ => ⟨rfl, rfl⟩⟩

theorem enqueue_spec {clen : Nat} {enqueued : Bool}
    (h : ipReassEnqueueNewDatagram fraghdr clen s = some (enqueued, t)) :
    ∃ u, Kept fraghdr s u ∧
      (enqueued = true → u.reassdatagrams.length < mempNumReassdata ∧
        t = { u with reassdatagrams := { iphdr := fraghdr } :: u.reassdatagrams }) ∧
      (enqueued = false → t = u) ∧
      (s.reassdatagrams.length < mempNumReassdata → enqueued = true ∧ u = s) := by
  unfold ipReassEnqueueNewDatagram at h
  dsimp only at h
  split at h
  next hlt =>
    obtain ⟨rfl, rfl⟩ := Prod.mk.inj (Option.some.inj h)
    exact ⟨s, .refl _ _, fun _ => ⟨hlt, rfl⟩, nofun, fun _ => ⟨rfl, rfl⟩⟩
  next hfull =>
    obtain ⟨⟨freed, u⟩, hremove, heq⟩ := Option.map_eq_some_iff.mp h
    refine ⟨u, kept_removeOldestLoop hremove, ?_⟩
    dsimp only at heq
    split at heq
    next hroom =>
      obtain ⟨rfl, rfl⟩ := Prod.mk.inj heq
      exact ⟨fun _ => ⟨hroom.2, rfl⟩, nofun, fun hlt => absurd hlt hfull⟩
    next =>
      obtain ⟨rfl, rfl⟩ := Prod.mk.inj heq
      exact ⟨nofun, fun _ => rfl, fun hlt => absurd hlt hfull⟩

/-- The entry the fragment is taken into. -/
inductive Opened (p : IpFragment) (s : Reass) : Reass → Prop where
  | own : Opened p s s
  | new (hnone : ∀ r ∈ s.reassdatagrams, ipAddressesAndIdMatch r.iphdr p.hdr = false)
      (hlt : s.reassdatagrams.length < mempNumReassdata) :
      Opened p s { s with reassdatagrams := { iphdr := p.hdr } :: s.reassdatagrams }

/-- What `ip_reass` does, once there is room. -/
theorem ipReass_cases (h : ipReass p s = some t) :
    ∃ u, Kept p.hdr s u ∧
      (t = u.drop p ∧ (p.hdr.hl = 5 → ¬ Roomy p s ∧ (roomMade p s = true →
          ∀ r ∈ s.reassdatagrams, ipAddressesAndIdMatch r.iphdr p.hdr = false)) ∨
        ∃ w front r back, Opened p u w ∧ w.reassdatagrams = front ++ r :: back ∧
          ipAddressesAndIdMatch r.iphdr p.hdr = true ∧
          w.pbufcount + p.clen ≤ ipReassMaxPbufs ∧ t = ipReassTake p front.length w ∧
          roomMade p s = true ∧ (Roomy p s → u = s)) := by
  unfold ipReass at h
  split at h
  next hhl =>
    refine ⟨s, .refl _ _, .inl ⟨(Option.some.inj h).symm, fun hfive => ?_⟩⟩
    rw [hfive] at hhl
    exact absurd rfl hhl
  next =>
    obtain ⟨⟨room, u⟩, hmake, hrest⟩ := Option.bind_eq_some_iff.mp h
    obtain ⟨hkept, hle, hroomy⟩ := makeRoom_spec hmake
    have hmade : roomMade p s = room := by rw [roomMade, hmake, Option.any_some]
    dsimp only at hrest
    cases room with
    | false =>
        refine ⟨u, hkept, .inl ⟨(Option.some.inj hrest).symm, fun _ =>
          ⟨fun hr => ?_, fun ht => ?_⟩⟩⟩
        · exact absurd (hroomy hr.1).1 Bool.false_ne_true
        · exact absurd (hmade.symm.trans ht) Bool.false_ne_true
    | true =>
        simp only [Bool.not_true, Bool.false_eq_true, if_false] at hrest
        have hcount := hle rfl
        split at hrest
        next i hfind =>
          obtain ⟨hi, hmatch, -⟩ := List.findIdx?_eq_some_iff_getElem.mp hfind
          obtain ⟨front, back, hsplit, rfl⟩ := exists_split_at (List.getElem?_eq_getElem hi)
          exact ⟨u, hkept, .inr ⟨u, front, _, back, .own, hsplit, hmatch, hcount,
            (Option.some.inj hrest).symm, hmade, fun hr => (hroomy hr.1).2⟩⟩
        next hfind =>
          have hnone : ∀ r ∈ u.reassdatagrams, ipAddressesAndIdMatch r.iphdr p.hdr = false := by
            simpa using hfind
          obtain ⟨⟨enqueued, v⟩, henqueue, heq⟩ := Option.map_eq_some_iff.mp hrest
          obtain ⟨w, hkept', htrue, hfalse, hfree⟩ := enqueue_spec henqueue
          have hroomy' (hr : Roomy p s) : enqueued = true ∧ w = u := by
            obtain ⟨-, rfl⟩ := hroomy hr.1
            refine hfree (hr.2.resolve_right ?_)
            rintro ⟨r, hmem, hmatch⟩
            exact absurd ((hnone r hmem).symm.trans hmatch) Bool.false_ne_true
          cases enqueued with
          | false =>
              obtain rfl := hfalse rfl
              refine ⟨v, hkept.trans hkept', .inl ⟨heq.symm, fun _ =>
                ⟨fun hr => ?_, fun _ r hr => ?_⟩⟩⟩
              · exact absurd (hroomy' hr).1 Bool.false_ne_true
              · by_contra hmatch
                have hmatch' := Bool.not_eq_false _ ▸ hmatch
                exact absurd ((hnone r (hkept.own r hr hmatch')).symm.trans hmatch')
                  Bool.false_ne_true
          | true =>
              obtain ⟨hlt, rfl⟩ := htrue rfl
              refine ⟨w, hkept.trans hkept', .inr ⟨_, [], { iphdr := p.hdr }, w.reassdatagrams,
                .new (fun r hr => hnone r (hkept'.sublist.subset hr)) hlt, rfl, by
                  simp [ipAddressesAndIdMatch], ?_, heq.symm, hmade, fun hr => ?_⟩⟩
              · exact Nat.le_trans (Nat.add_le_add_right hkept'.le _) hcount
              · rw [(hroomy' hr).2, (hroomy hr.1).2]

/-- A fragment changes nothing but the entry of its datagram. -/
theorem ipReassTake_cases {front back : List ReassData}
    (hsplit : s.reassdatagrams = front ++ r :: back) :
    chainFragAndValidate (r.noteHeader p.hdr) p.helper = none ∧
        ipReassTake p front.length s = { s with
          reassdatagrams := front ++ r.noteHeader p.hdr :: back
          freed := s.freed + p.clen } ∨
      (∃ frags, chainFragAndValidate (r.noteHeader p.hdr) p.helper = some (frags, false) ∧
        ipReassTake p front.length s = { s with
          reassdatagrams := front ++ { r.noteHeader p.hdr with p := frags } :: back
          pbufcount := s.pbufcount + p.clen }) ∨
      ∃ frags, chainFragAndValidate (r.noteHeader p.hdr) p.helper = some (frags, true) ∧
        ipReassTake p front.length s = { s with
          reassdatagrams := front ++ back
          pbufcount := s.pbufcount + p.clen -
            { r.noteHeader p.hdr with p := frags }.datagram.clen
          delivered := s.delivered ++ [{ r.noteHeader p.hdr with p := frags }.datagram] } := by
  have hget : s.reassdatagrams[front.length]? = some r := by
    rw [hsplit, List.getElem?_append_right (Nat.le_refl _), Nat.sub_self]
    rfl
  have hset (x : ReassData) : s.reassdatagrams.set front.length x = front ++ x :: back := by
    rw [hsplit, List.set_append_right _ _ (Nat.le_refl _), Nat.sub_self]
    rfl
  have herase : s.reassdatagrams.eraseIdx front.length = front ++ back := by
    rw [hsplit, eraseIdx_split]
  cases hchain : chainFragAndValidate (r.noteHeader p.hdr) p.helper with
  | none =>
      refine .inl ⟨rfl, ?_⟩
      simp only [ipReassTake, hget, hchain, hset]
  | some frags =>
      obtain ⟨frags, _ | _⟩ := frags
      · refine .inr (.inl ⟨frags, rfl, ?_⟩)
        simp only [ipReassTake, hget, hchain, hset]
      · refine .inr (.inr ⟨frags, rfl, ?_⟩)
        simp only [ipReassTake, hget, hchain, herase]

end Room

/-! ## One step -/

theorem match_iff {a b : IpHdr} : ipAddressesAndIdMatch a b = true ↔ a.key = b.key := by
  simp [ipAddressesAndIdMatch, IpHdr.key]

/-- What is stored are entries of different datagrams. -/
structure Stored (parts : UInt32 × UInt32 × UInt16 → List IpFragment) (l : List ReassData) :
    Prop where
  entries : ∀ r ∈ l, ReassEntry (parts r.iphdr.key) r
  nodup : (l.map fun r => r.iphdr.key).Nodup

/-- A fragment that makes the datagram of an entry whole joins the one in front of it. -/
def Joins (p : IpFragment) (s : Reass) : Prop :=
  roomMade p s = true → ∀ r ∈ s.reassdatagrams, ipAddressesAndIdMatch r.iphdr p.hdr = true →
    (chainFragAndValidate (r.noteHeader p.hdr) p.helper).any Prod.snd = true →
      JoinsAt p.helper r.p

section Steps

variable {parts : UInt32 × UInt32 × UInt16 → List IpFragment} {p : IpFragment} {s t : Reass}
  {r x : ReassData} {l front back : List ReassData}

theorem Stored.empty : Stored parts ({} : Reass).reassdatagrams := ⟨nofun, .nil⟩

theorem Stored.sublist (h : Stored parts l) {l' : List ReassData} (hsub : l'.Sublist l) :
    Stored parts l' :=
  ⟨fun r hr => h.entries r (hsub.subset hr), h.nodup.sublist (hsub.map _)⟩

theorem Stored.replace (h : Stored parts (front ++ r :: back))
    (hx : ReassEntry (parts r.iphdr.key) x)
    (hkey : x.iphdr.key = r.iphdr.key) : Stored parts (front ++ x :: back) := by
  refine ⟨fun y hy => ?_, ?_⟩
  · rcases List.mem_append.mp hy with hy | hy
    · exact h.entries y (List.mem_append_left _ hy)
    · rcases List.mem_cons.mp hy with rfl | hy
      · rw [hkey]
        exact hx
      · exact h.entries y (List.mem_append_right _ (.tail _ hy))
  · have hnodup := h.nodup
    rw [List.map_append, List.map_cons] at hnodup ⊢
    rwa [hkey]

theorem Stored.opened (h : Stored parts s.reassdatagrams) (hp : p ∈ parts p.hdr.key)
    (hopen : Opened p s t) : Stored parts t.reassdatagrams := by
  cases hopen with
  | own => exact h
  | new hnone hlt =>
      refine ⟨fun r hr => ?_, List.nodup_cons.mpr ⟨fun hmem => ?_, h.nodup⟩⟩
      · rcases List.mem_cons.mp hr with rfl | hr
        · exact .fresh hp
        · exact h.entries r hr
      · obtain ⟨r, hr, hkey⟩ := List.mem_map.mp hmem
        exact absurd ((hnone r hr).symm.trans (match_iff.mpr hkey)) Bool.false_ne_true

/-- An entry is found by its datagram. -/
theorem Stored.eq_of_key (h : Stored parts l) (hr : r ∈ l) (hx : x ∈ l)
    (hkey : r.iphdr.key = x.iphdr.key) : r = x :=
  List.inj_on_of_nodup_map h.nodup hr hx hkey

/-- The header that is noted belongs to the same datagram. -/
theorem noteHeader_key (hkey : r.iphdr.key = p.hdr.key) :
    (r.noteHeader p.hdr).iphdr.key = r.iphdr.key := by
  rw [noteHeader_iphdr]
  split
  · exact hkey.symm
  · rfl

/-- Whether a fragment joins the one in front is a matter of the entry it is taken into. -/
theorem joins_iff {u w : Reass} (hstored : Stored parts w.reassdatagrams)
    (hkept : Kept p.hdr s u) (hopen : Opened p u w) (hr : r ∈ w.reassdatagrams)
    (hmatch : ipAddressesAndIdMatch r.iphdr p.hdr = true) (hmade : roomMade p s = true) :
    Joins p s ↔ ((chainFragAndValidate (r.noteHeader p.hdr) p.helper).any Prod.snd = true →
      JoinsAt p.helper r.p) := by
  cases hopen with
  | own =>
      refine ⟨fun h => h hmade r (hkept.sublist.subset hr) hmatch, fun h _ x hx hxmatch => ?_⟩
      have hkey := (match_iff.mp hxmatch).trans (match_iff.mp hmatch).symm
      rw [hstored.eq_of_key (hkept.own x hx hxmatch) hr hkey]
      exact h
  | new hnone hlt =>
      have hnew : r = { iphdr := p.hdr } := by
        refine (List.mem_cons.mp hr).resolve_right fun hr' => ?_
        exact absurd ((hnone r hr').symm.trans hmatch) Bool.false_ne_true
      refine iff_of_true (fun _ x hx hxmatch => ?_) fun _ => hnew ▸ .nil
      exact absurd ((hnone x (hkept.own x hx hxmatch)).symm.trans hxmatch) Bool.false_ne_true

/-- What one fragment does, when its sender cut the datagram. -/
theorem Stored.ipReass (h : Stored parts s.reassdatagrams) (hparts : ∀ k, Fragmented k (parts k))
    (hp : p ∈ parts p.hdr.key) (hstep : ipReass p s = some t) :
    Stored parts t.reassdatagrams ∧
      (t.delivered = s.delivered ∧ Joins p s ∨
        ∃ d, t.delivered = s.delivered ++ [d] ∧ d.hdr.key = p.hdr.key ∧
          (Whole (parts p.hdr.key) d ↔ Joins p s)) := by
  obtain ⟨u, hkept, ⟨rfl, hdrop⟩ | ⟨w, front, r, back, hopen, hsplit, hmatch, -, rfl, hmade, -⟩⟩ :=
    ipReass_cases hstep
  · refine ⟨h.sublist hkept.sublist, .inl ⟨hkept.delivered, fun hmade r hr hmatch => ?_⟩⟩
    obtain ⟨-, hnone⟩ := hdrop ((hparts _).hl p hp)
    exact absurd ((hnone hmade r hr).symm.trans hmatch) Bool.false_ne_true
  · have hkey := match_iff.mp hmatch
    have hstored := (h.sublist hkept.sublist).opened hp hopen
    have hr : r ∈ w.reassdatagrams := hsplit ▸ List.mem_append_right _ (.head _)
    have hentry := hstored.entries r hr
    have hdelivered : w.delivered = s.delivered := by cases hopen <;> exact hkept.delivered
    have hjoins := joins_iff hstored hkept hopen hr hmatch hmade
    have hfs := hparts r.iphdr.key
    rw [← hkey] at hp
    have hnote : ∀ l, { r.noteHeader p.hdr with p := l }.iphdr.key = r.iphdr.key := fun _ =>
      noteHeader_key hkey
    rw [hsplit] at hstored
    obtain ⟨hnone, heq⟩ | ⟨frags, hsome, heq⟩ | ⟨frags, hsome, heq⟩ := ipReassTake_cases hsplit
    · rw [heq]
      refine ⟨hstored.replace (hentry.again hfs hp hnone).2 (noteHeader_key hkey),
        .inl ⟨hdelivered, hjoins.mpr fun hvalid => ?_⟩⟩
      rw [hnone] at hvalid
      exact nomatch hvalid
    · rw [heq]
      refine ⟨hstored.replace ((hentry.take hfs hp hsome).2.1 rfl) (hnote frags),
        .inl ⟨hdelivered, hjoins.mpr fun hvalid => ?_⟩⟩
      rw [hsome] at hvalid
      exact nomatch hvalid
    · have hwhole := (hentry.take hfs hp hsome).2.2 rfl
      rw [heq]
      refine ⟨hstored.sublist (.append_left (List.sublist_cons_self _ _) _),
        .inr ⟨_, congrArg (· ++ [_]) hdelivered, (hnote frags).trans hkey, ?_⟩⟩
      rw [← hkey, hjoins, hsome]
      exact hwhole.trans ⟨fun h _ => h, fun h => h rfl⟩

end Steps

/-! ## What has come -/

/-- Of each datagram that was not passed on yet, the fragments that have come are stored. -/
def Collected (come : List IpFragment) (s : Reass) : Prop :=
  ∀ k, (∃ d ∈ s.delivered, d.hdr.key = k) ∨
    ∀ f ∈ come, f.hdr.key = k → ∃ r ∈ s.reassdatagrams, r.iphdr.key = k ∧ f.helper ∈ r.p

section Coming

variable {parts : UInt32 × UInt32 × UInt16 → List IpFragment} {come : List IpFragment}
  {p : IpFragment} {s t : Reass} {r x : ReassData} {front back : List ReassData}

theorem Collected.mono {come' : List IpFragment} (h : Collected come s) (hsub : come' ⊆ come) :
    Collected come' s :=
  fun k => (h k).imp_right fun hall f hf => hall f (hsub hf)

theorem Collected.opened (h : Collected come s) (hopen : Opened p s t) : Collected come t := by
  cases hopen with
  | own => exact h
  | new hnone hlt =>
      refine fun k => (h k).imp_right fun hall f hf hkey => ?_
      obtain ⟨r, hr, hin⟩ := hall f hf hkey
      exact ⟨r, .tail _ hr, hin⟩

/-- The fragment is stored with the others. -/
theorem Collected.store (h : Collected come s) (hsplit : s.reassdatagrams = front ++ r :: back)
    (hkey : r.iphdr.key = p.hdr.key) (hxkey : x.iphdr.key = r.iphdr.key)
    (hmem : ∀ q, q = p.helper ∨ q ∈ r.p → q ∈ x.p) (ht : t.reassdatagrams = front ++ x :: back)
    (hdelivered : t.delivered = s.delivered) : Collected (p :: come) t := by
  intro k
  rw [hdelivered, ht]
  refine (h k).imp_right fun hall f hf hfk => ?_
  have hx : x ∈ front ++ x :: back := List.mem_append_right _ (.head _)
  rcases List.mem_cons.mp hf with rfl | hf
  · exact ⟨x, hx, hxkey.trans (hkey.trans hfk), hmem _ (.inl rfl)⟩
  · obtain ⟨y, hy, hyk, hin⟩ := hall f hf hfk
    rw [hsplit] at hy
    rcases List.mem_append.mp hy with hy | hy
    · exact ⟨y, List.mem_append_left _ hy, hyk, hin⟩
    · rcases List.mem_cons.mp hy with rfl | hy
      · exact ⟨x, hx, hxkey.trans hyk, hmem _ (.inr hin)⟩
      · exact ⟨y, List.mem_append_right _ (.tail _ hy), hyk, hin⟩

/-- The datagram of the fragment is passed on. -/
theorem Collected.pass {d : IpDatagram} (h : Collected come s)
    (hsplit : s.reassdatagrams = front ++ r :: back) (hkey : r.iphdr.key = p.hdr.key)
    (hd : d.hdr.key = p.hdr.key) (ht : t.reassdatagrams = front ++ back)
    (hdelivered : t.delivered = s.delivered ++ [d]) : Collected (p :: come) t := by
  intro k
  rw [hdelivered, ht]
  by_cases hk : p.hdr.key = k
  · exact .inl ⟨d, List.mem_append_right _ (.head _), hd.trans hk⟩
  · refine (h k).imp (fun ⟨e, he, hek⟩ => ⟨e, List.mem_append_left _ he, hek⟩)
      fun hall f hf hfk => ?_
    rcases List.mem_cons.mp hf with rfl | hf
    · exact absurd hfk hk
    · obtain ⟨y, hy, hyk, hin⟩ := hall f hf hfk
      rw [hsplit] at hy
      refine ⟨y, ?_, hyk, hin⟩
      rcases List.mem_append.mp hy with hy | hy
      · exact List.mem_append_left _ hy
      · rcases List.mem_cons.mp hy with rfl | hy
        · exact absurd (hkey.symm.trans hyk) hk
        · exact List.mem_append_right _ hy

theorem Collected.ipReass (h : Collected come s) (hstored : Stored parts s.reassdatagrams)
    (hparts : ∀ k, Fragmented k (parts k)) (hp : p ∈ parts p.hdr.key) (hroomy : Roomy p s)
    (hstep : ipReass p s = some t) : Collected (p :: come) t := by
  obtain ⟨u, hkept, ⟨rfl, hdrop⟩ | ⟨w, front, r, back, hopen, hsplit, hmatch, -, rfl, -, hu⟩⟩ :=
    ipReass_cases hstep
  · exact absurd hroomy (hdrop ((hparts _).hl p hp)).1
  · obtain rfl := hu hroomy
    have hkey := match_iff.mp hmatch
    have hentry := (hstored.opened hp hopen).entries r (hsplit ▸ List.mem_append_right _ (.head _))
    have hw := h.opened hopen
    have hfs := hparts r.iphdr.key
    rw [← hkey] at hp
    obtain ⟨hnone, heq⟩ | ⟨frags, hsome, heq⟩ | ⟨frags, hsome, heq⟩ := ipReassTake_cases hsplit
    · rw [heq]
      refine hw.store (x := r.noteHeader p.hdr) hsplit hkey (noteHeader_key hkey) ?_ rfl rfl
      rintro q (rfl | hq)
      · rw [noteHeader_p]
        exact (hentry.again hfs hp hnone).1
      · rwa [noteHeader_p]
    · rw [heq]
      exact hw.store (x := { r.noteHeader p.hdr with p := frags }) hsplit hkey
        (noteHeader_key hkey) (fun q => ((hentry.take hfs hp hsome).1 q).mpr) rfl rfl
    · rw [heq]
      exact hw.pass (d := { r.noteHeader p.hdr with p := frags }.datagram) hsplit hkey
        ((noteHeader_key hkey).trans hkey) rfl rfl

/-- A datagram all of whose fragments have come was passed on. -/
theorem Collected.delivered {k : UInt32 × UInt32 × UInt16} (h : Collected come s)
    (hstored : Stored parts s.reassdatagrams) (hfs : Fragmented k (parts k)) (hne : parts k ≠ [])
    (hall : ∀ f ∈ parts k, f ∈ come) : ∃ d ∈ s.delivered, d.hdr.key = k := by
  refine (h k).resolve_right fun hin => ?_
  obtain ⟨f, hf⟩ := List.exists_mem_of_ne_nil _ hne
  obtain ⟨r, hr, rfl, -⟩ := hin f (hall f hf) (hfs.key_eq f hf)
  have hentry := hstored.entries r hr
  refine hentry.ne (hfs.cut_helper.eq_of_forall_mem hentry.apart hentry.mem fun q hq => ?_)
  obtain ⟨g, hg, rfl⟩ := List.mem_map.mp hq
  obtain ⟨y, hy, hykey, hgin⟩ := hin g (hall g hg) (hfs.key_eq g hg)
  exact hstored.eq_of_key hy hr hykey ▸ hgin

end Coming

/-! ## The timer -/

section Timer

variable {parts : UInt32 × UInt32 × UInt16 → List IpFragment} {fs come : List IpFragment}
  {s : Reass} {r : ReassData}

/-- An entry as the timer leaves it. -/
def ReassData.tick (r : ReassData) : ReassData := { r with timer := r.timer - 1 }

theorem tmr_reassdatagrams (s : Reass) : (ipReassTmr s).reassdatagrams =
    (s.reassdatagrams.filter fun r => r.timer ≠ 0).map ReassData.tick := rfl

theorem ReassEntry.tick (h : ReassEntry fs r) : ReassEntry fs r.tick :=
  ⟨h.mem, h.apart, h.hdr, h.first, h.last, h.len, h.ne⟩

theorem Stored.tmr (h : Stored parts s.reassdatagrams) :
    Stored parts (ipReassTmr s).reassdatagrams := by
  rw [tmr_reassdatagrams]
  have hfilter := h.sublist (List.filter_sublist (p := fun r => decide (r.timer ≠ 0)))
  refine ⟨fun r hr => ?_, ?_⟩
  · obtain ⟨x, hx, rfl⟩ := List.mem_map.mp hr
    exact (hfilter.entries x hx).tick
  · rw [List.map_map]
    exact hfilter.nodup

theorem Collected.tmr (h : Collected come s) (hample : ∀ r ∈ s.reassdatagrams, r.timer ≠ 0) :
    Collected come (ipReassTmr s) := by
  refine fun k => (h k).imp_right fun hall f hf hkey => ?_
  obtain ⟨r, hr, hrkey, hin⟩ := hall f hf hkey
  refine ⟨r.tick, ?_, hrkey, hin⟩
  rw [tmr_reassdatagrams]
  exact List.mem_map_of_mem (List.mem_filter.mpr ⟨hr, decide_eq_true (hample r hr)⟩)

end Timer

/-! ## Runs -/

/-- An event of the reassembly. -/
inductive ReassEvent where
  | fragment (p : IpFragment)
  | tmr
deriving DecidableEq

/-- The reassembly.  Nothing is said of it once its list is broken. -/
def reassMachine : Machine Reass ReassEvent where
  step
    | s, .fragment p => ipReass p s
    | s, .tmr => some (ipReassTmr s)

/-- No fragment makes a datagram whole that does not join the one in front of it. -/
def Joined (s : Reass) : ReassEvent → Prop
  | .fragment p => Joins p s
  | .tmr => True

/-- Nothing is freed for want of room, or because it took too long. -/
def Ample (s : Reass) : ReassEvent → Prop
  | .fragment p => Roomy p s
  | .tmr => ∀ r ∈ s.reassdatagrams, r.timer ≠ 0

/-- What comes was sent. -/
def Sent (parts : UInt32 × UInt32 × UInt16 → List IpFragment) : ReassEvent → Prop
  | .fragment p => p ∈ parts p.hdr.key
  | .tmr => True

/-- The fragment of an event. -/
def ReassEvent.frag? : ReassEvent → Option IpFragment
  | .fragment p => some p
  | .tmr => none

instance (p : IpFragment) (s : Reass) : Decidable (Joins p s) := by
  unfold Joins JoinsAt
  infer_instance

instance (s : Reass) : (e : ReassEvent) → Decidable (Joined s e)
  | .fragment p => inferInstanceAs (Decidable (Joins p s))
  | .tmr => .isTrue trivial

instance (s : Reass) : (e : ReassEvent) → Decidable (Ample s e)
  | .fragment _ => inferInstanceAs (Decidable (_ ∧ _))
  | .tmr => inferInstanceAs (Decidable (∀ r ∈ s.reassdatagrams, r.timer ≠ 0))

instance (parts : UInt32 × UInt32 × UInt16 → List IpFragment) :
    (e : ReassEvent) → Decidable (Sent parts e)
  | .fragment p => inferInstanceAs (Decidable (p ∈ parts p.hdr.key))
  | .tmr => .isTrue trivial

section Runs

variable {parts : UInt32 × UInt32 × UInt16 → List IpFragment} {es : List ReassEvent}
  {e : ReassEvent} {s t : Reass}

theorem Stored.step (h : Stored parts s.reassdatagrams) (hparts : ∀ k, Fragmented k (parts k))
    (hsent : Sent parts e) (hstep : reassMachine.step s e = some t) :
    Stored parts t.reassdatagrams ∧ ((∀ d ∈ t.delivered, Whole (parts d.hdr.key) d) ↔
      (∀ d ∈ s.delivered, Whole (parts d.hdr.key) d) ∧ Joined s e) := by
  cases e with
  | fragment p =>
      obtain ⟨hstored, ⟨heq, hjoins⟩ | ⟨d, heq, hkey, hwhole⟩⟩ := h.ipReass hparts hsent hstep
      · refine ⟨hstored, ?_⟩
        rw [heq]
        exact (and_iff_left hjoins).symm
      · refine ⟨hstored, ?_⟩
        rw [heq, List.forall_mem_append, List.forall_mem_singleton, hkey]
        exact and_congr_right' hwhole
  | tmr =>
      obtain rfl := Option.some.inj hstep
      exact ⟨h.tmr, (and_iff_left trivial).symm⟩

/-- What is sent is stored, or was passed on, while nothing has to be freed. -/
theorem Collected.run {come : List IpFragment} (hstored : Stored parts s.reassdatagrams)
    (hparts : ∀ k, Fragmented k (parts k)) (hsent : ∀ e ∈ es, Sent parts e)
    (hrun : reassMachine.run s es = some t) (hample : reassMachine.Meets Ample s es)
    (h : Collected come s) : Collected (come ++ es.filterMap ReassEvent.frag?) t := by
  induction es generalizing s come with
  | nil =>
      obtain rfl := Option.some.inj hrun
      rwa [List.filterMap_nil, List.append_nil]
  | cons e es ih =>
      obtain ⟨u, hu, hrest⟩ := Machine.run_cons.mp hrun
      have he := hsent e (.head _)
      have hbehind {come' : List IpFragment} (hcome : Collected come' u) :=
        ih (hstored.step hparts he hu).1 (fun e' he' => hsent e' (.tail _ he')) hrest
          (hample.2 u hu) hcome
      cases e with
      | fragment p =>
          refine (hbehind (h.ipReass hstored hparts he hample.1 hu)).mono fun f hf => ?_
          change f ∈ come ++ p :: es.filterMap ReassEvent.frag? at hf
          simp only [List.mem_append, List.mem_cons] at hf ⊢
          tauto
      | tmr =>
          obtain rfl := Option.some.inj hu
          exact hbehind (h.tmr hample.1)

theorem Stored.run (hparts : ∀ k, Fragmented k (parts k)) (hsent : ∀ e ∈ es, Sent parts e)
    (hrun : reassMachine.run {} es = some t) : Stored parts t.reassdatagrams ∧
      ((∀ d ∈ t.delivered, Whole (parts d.hdr.key) d) ↔ reassMachine.Meets Joined {} es) := by
  obtain ⟨hstored, hiff⟩ := Machine.run_iff_meets (J := fun s => Stored parts s.reassdatagrams)
    (I := fun s => ∀ d ∈ s.delivered, Whole (parts d.hdr.key) d)
    (fun s e t h hs ht => h.step hparts hs ht) hrun hsent .empty
  exact ⟨hstored, hiff.trans (and_iff_right nofun)⟩

theorem exists_delivered {k : UInt32 × UInt32 × UInt16} (hparts : ∀ k, Fragmented k (parts k))
    (hsent : ∀ e ∈ es, Sent parts e) (hrun : reassMachine.run {} es = some t)
    (hample : reassMachine.Meets Ample {} es) (hne : parts k ≠ [])
    (hall : ∀ f ∈ parts k, .fragment f ∈ es) : ∃ d ∈ t.delivered, d.hdr.key = k := by
  have hcollected : Collected ([] ++ es.filterMap ReassEvent.frag?) t :=
    Collected.run .empty hparts hsent hrun hample fun _ => .inr nofun
  refine hcollected.delivered (Stored.run hparts hsent hrun).1 (hparts k) hne fun f hf => ?_
  exact List.mem_filterMap.mpr ⟨_, hall f hf, rfl⟩

/-- What is passed on is what was sent, exactly when every fragment that makes a datagram whole
joins the one in front of it.  While nothing has to be freed, each datagram is passed on whose
fragments have all come. -/
theorem reass_delivers (hparts : ∀ k, Fragmented k (parts k)) (hsent : ∀ e ∈ es, Sent parts e)
    (hrun : reassMachine.run {} es = some t) :
    ((∀ d ∈ t.delivered, Whole (parts d.hdr.key) d) ↔ reassMachine.Meets Joined {} es) ∧
      (reassMachine.Meets Ample {} es → ∀ k, parts k ≠ [] →
        (∀ f ∈ parts k, .fragment f ∈ es) → ∃ d ∈ t.delivered, d.hdr.key = k) :=
  ⟨(Stored.run hparts hsent hrun).2, fun hample _ => exists_delivered hparts hsent hrun hample⟩

/-- A fragment of a datagram from the host to the device. -/
def sampleFragment (id offset : UInt16) (payload : List UInt8) : IpFragment where
  hdr :=
    { hl := 5, tos := 0, len := .ofNat (ipHlen + payload.length), id, offset, ttl := 64,
      proto := 17, src := 0xC0A80702, dest := 0xC0A80701 }
  payload := payload
  clen := 1

/-- Two datagrams, one in two fragments and one in three. -/
def sampleParts (key : UInt32 × UInt32 × UInt16) : List IpFragment :=
  if key = (0xC0A80702, 0xC0A80701, 1) then
    [sampleFragment 1 0x2000 [0, 1, 2, 3, 4, 5, 6, 7], sampleFragment 1 1 [8, 9]]
  else if key = (0xC0A80702, 0xC0A80701, 2) then
    [sampleFragment 2 0x2000 [0, 1, 2, 3, 4, 5, 6, 7],
      sampleFragment 2 0x2001 [8, 9, 10, 11, 12, 13, 14, 15], sampleFragment 2 2 [16]]
  else []

/-- The last fragments come first, one of them twice. -/
def sampleRun : List ReassEvent :=
  [.fragment (sampleFragment 2 2 [16]), .fragment (sampleFragment 1 1 [8, 9]), .tmr,
    .fragment (sampleFragment 2 0x2001 [8, 9, 10, 11, 12, 13, 14, 15]),
    .fragment (sampleFragment 1 1 [8, 9]),
    .fragment (sampleFragment 2 0x2000 [0, 1, 2, 3, 4, 5, 6, 7]),
    .fragment (sampleFragment 1 0x2000 [0, 1, 2, 3, 4, 5, 6, 7])]

theorem sampleParts_fragmented (k : UInt32 × UInt32 × UInt16) : Fragmented k (sampleParts k) := by
  unfold sampleParts
  split
  next hk =>
    subst hk
    exact ⟨by decide, by decide, by decide, ⟨by decide, by decide, by decide, by decide⟩, by decide⟩
  next =>
    split
    next hk =>
      subst hk
      exact ⟨by decide, by decide, by decide, ⟨by decide, by decide, by decide, by decide⟩,
        by decide⟩
    next => exact ⟨nofun, nofun, nofun, ⟨.nil, nofun, nofun, nofun⟩, nofun⟩

theorem reass_delivers_sample : ∃ t, reassMachine.run {} sampleRun = some t ∧
    (∀ d ∈ t.delivered, Whole (sampleParts d.hdr.key) d) ∧
      ∃ d ∈ t.delivered, d.hdr.key = (0xC0A80702, 0xC0A80701, 2) := by
  obtain ⟨t, hrun⟩ : ∃ t, reassMachine.run {} sampleRun = some t :=
    Option.isSome_iff_exists.mp (by decide)
  have hall := reass_delivers sampleParts_fragmented (by decide) hrun
  exact ⟨t, hrun, hall.1.mpr (by decide), hall.2 (by decide) _ (by decide) (by decide)⟩

/-- The second of three fragments fills the hole behind it, but not the one in front. -/
example : ¬ reassMachine.Meets Joined {}
    [.fragment (sampleFragment 1 0x2000 [0, 1, 2, 3, 4, 5, 6, 7]),
      .fragment (sampleFragment 1 3 [24]),
      .fragment (sampleFragment 1 0x2002 [16, 17, 18, 19, 20, 21, 22, 23])] := by decide

end Runs

end Adhoc
