import Mathlib.Data.List.Basic
import Mathlib.Tactic.Common

/-!
# Bulk transfers

A transfer goes over the wire in packets of one size, and only its last packet
may be short.  An empty transfer is one empty packet.  The receiver does not see
the transfers: it reads packets until one is short, and what it read is a message
(`readMessage`).

So a sequence of transfers is a message exactly when their packets are full up to
a last one that is short (`EndsShort`).  That is so when all transfers but the
last are whole packets and the last is not (`endsShort_transfers`), and then the
receiver reads the octets of the transfers and stops behind them
(`readMessage_append`).
-/

namespace Bulk

universe u

variable {α : Type u} {n : Nat}

/-- The packets of a transfer. -/
def packets (n : Nat) (bs : List α) : List (List α) :=
  if n = 0 ∨ bs.length ≤ n then [bs] else bs.take n :: packets n (bs.drop n)
termination_by bs.length
decreasing_by
  rw [List.length_drop]
  omega

/-- The receiver reads up to the first short packet.  It returns the message and
the packets behind it. -/
def readMessage (n : Nat) : List (List α) → Option (List α × List (List α))
  | [] => none
  | p :: ps =>
      if p.length < n then some (p, ps)
      else (readMessage n ps).map fun message => (p ++ message.1, message.2)

/-- Full packets, and a short one at the end. -/
inductive EndsShort (n : Nat) : List (List α) → Prop where
  | short (p : List α) (h : p.length < n) : EndsShort n [p]
  | full (p : List α) (ps : List (List α)) (h : p.length = n) (hrest : EndsShort n ps) :
      EndsShort n (p :: ps)

/-! ## The packets of a transfer -/

theorem packets_of_le {bs : List α} (h : bs.length ≤ n) : packets n bs = [bs] := by
  rw [packets, if_pos (.inr h)]

theorem flatten_packets (n : Nat) (bs : List α) : (packets n bs).flatten = bs := by
  induction bs using packets.induct n with
  | case1 bs h => rw [packets, if_pos h, List.flatten_singleton]
  | case2 bs h ih => rw [packets, if_neg h, List.flatten_cons, ih, List.take_append_drop]

theorem flatten_flatMap_packets (n : Nat) (ts : List (List α)) :
    (ts.flatMap (packets n)).flatten = ts.flatten := by
  induction ts with
  | nil => rfl
  | cons t ts ih =>
      rw [List.flatMap_cons, List.flatten_append, flatten_packets, ih, List.flatten_cons]

/-- The packets of a transfer of whole packets are full. -/
theorem length_of_mem_packets {bs : List α} (hn : 0 < n) (hne : bs ≠ []) (hdvd : n ∣ bs.length) :
    ∀ p ∈ packets n bs, p.length = n := by
  induction bs using packets.induct n with
  | case1 bs h =>
      have hpos : 0 < bs.length := List.length_pos_iff.mpr hne
      have hle := Nat.le_of_dvd hpos hdvd
      have hlength : bs.length ≤ n := h.resolve_left (Nat.pos_iff_ne_zero.mp hn)
      rw [packets_of_le hlength]
      intro p hp
      rw [List.mem_singleton.mp hp]
      omega
  | case2 bs h ih =>
      rw [packets, if_neg h]
      have hdrop : (bs.drop n).length = bs.length - n := List.length_drop
      intro p hp
      cases hp with
      | head =>
          rw [List.length_take]
          omega
      | tail _ hp =>
          refine ih (fun hnil => ?_) (hdrop ▸ Nat.dvd_sub hdvd (Nat.dvd_refl n)) p hp
          rw [hnil, List.length_nil] at hdrop
          omega

/-- The packets of any other transfer end with a short one. -/
theorem endsShort_packets {bs : List α} (hn : 0 < n) (h : bs = [] ∨ ¬ n ∣ bs.length) :
    EndsShort n (packets n bs) := by
  induction bs using packets.induct n with
  | case1 bs hle =>
      have hlength : bs.length ≤ n := hle.resolve_left (Nat.pos_iff_ne_zero.mp hn)
      rw [packets_of_le hlength]
      refine .short bs (Nat.lt_of_le_of_ne hlength fun heq => ?_)
      rcases h with rfl | hdvd
      · exact absurd heq.symm (Nat.pos_iff_ne_zero.mp hn)
      · exact hdvd (heq ▸ Nat.dvd_refl bs.length)
  | case2 bs hlong ih =>
      rw [packets, if_neg hlong]
      have hdrop : (bs.drop n).length = bs.length - n := List.length_drop
      refine .full _ _ (by rw [List.length_take]; omega) (ih (.inr fun hdvd => ?_))
      have hall : n ∣ bs.length := by
        rw [show bs.length = (bs.drop n).length + n by omega]
        exact Nat.dvd_add hdvd (Nat.dvd_refl n)
      rcases h with rfl | h
      · exact hlong (.inr (Nat.zero_le n))
      · exact h hall

/-! ## Sequences of packets -/

theorem EndsShort.append_full {ps qs : List (List α)} (hps : ∀ p ∈ ps, p.length = n)
    (hqs : EndsShort n qs) : EndsShort n (ps ++ qs) := by
  induction ps with
  | nil => exact hqs
  | cons p ps ih =>
      exact .full p (ps ++ qs) (hps p List.mem_cons_self)
        (ih fun q hq => hps q (List.mem_cons_of_mem p hq))

/-- Transfers of whole packets and a last one that is not. -/
theorem endsShort_transfers {ts : List (List α)} {t : List α} (hn : 0 < n)
    (hts : ∀ b ∈ ts, b ≠ [] ∧ n ∣ b.length) (ht : t = [] ∨ ¬ n ∣ t.length) :
    EndsShort n ((ts ++ [t]).flatMap (packets n)) := by
  rw [List.flatMap_append, List.flatMap_singleton]
  refine .append_full (fun p hp => ?_) (endsShort_packets hn ht)
  obtain ⟨b, hb, hmem⟩ := List.mem_flatMap.mp hp
  obtain ⟨hne, hdvd⟩ := hts b hb
  exact length_of_mem_packets hn hne hdvd p hmem

/-- The receiver reads a message and stops behind it, whatever follows. -/
theorem readMessage_append {ps : List (List α)} (h : EndsShort n ps) (rest : List (List α)) :
    readMessage n (ps ++ rest) = some (ps.flatten, rest) := by
  induction h with
  | short p hp =>
      rw [List.singleton_append, readMessage, if_pos hp, List.flatten_singleton]
  | full p ps hp _ ih =>
      rw [List.cons_append, readMessage, if_neg (by omega), ih, Option.map_some, List.flatten_cons]

end Bulk
