import Adhoc.Lib.Bulk

/-!
# The data stage of a control read

A host asks for a number of octets and the device sends what it has in packets of
one size.  The device ends the stage with an empty packet where its data fills
the last packet and is less than the host asked for (`stagePackets`).  The host
reads until a packet is short or it has all it asked for, and fails when it gets
more (`readStage`).

The two agree on where the stage ends exactly when the data is no more than the
host asked for (`readStage_stagePackets_iff`).
-/

namespace Bulk

universe u

variable {α : Type u} {n asked : Nat}

/-- The packets of a data stage. -/
def stagePackets (n : Nat) (data : List α) (asked : Nat) : List (List α) :=
  packets n data ++
    if n ∣ data.length ∧ n ≤ data.length ∧ data.length < asked then [[]] else []

/-- What the host reads of a data stage, and the packets behind it. -/
def readStage (n : Nat) : Nat → List (List α) → Option (List α × List (List α))
  | _, [] => none
  | asked, p :: ps =>
      if asked < p.length then none
      else if p.length < n ∨ p.length = asked then some (p, ps)
      else (readStage n (asked - p.length) ps).map fun stage => (p ++ stage.1, stage.2)

theorem packets_of_lt {data : List α} (hn : 0 < n) (h : n < data.length) :
    packets n data = data.take n :: packets n (data.drop n) := by
  rw [packets, if_neg (by omega)]

theorem stagePackets_of_lt {data : List α} (hn : 0 < n) (h : n < data.length) :
    stagePackets n data asked =
      data.take n :: stagePackets n (data.drop n) (asked - n) := by
  have hends : (n ∣ data.length ∧ n ≤ data.length ∧ data.length < asked) ↔
      n ∣ (data.drop n).length ∧ n ≤ (data.drop n).length ∧ (data.drop n).length < asked - n := by
    rw [List.length_drop]
    constructor
    · rintro ⟨hdvd, -, hlt⟩
      have hle : n ≤ data.length - n :=
        Nat.le_of_dvd (by omega) (Nat.dvd_sub hdvd (Nat.dvd_refl n))
      exact ⟨Nat.dvd_sub hdvd (Nat.dvd_refl n), hle, by omega⟩
    · rintro ⟨hdvd, -, hlt⟩
      refine ⟨?_, by omega, by omega⟩
      rw [show data.length = data.length - n + n by omega]
      exact Nat.dvd_add hdvd (Nat.dvd_refl n)
  simp only [stagePackets, packets_of_lt hn h, hends, List.cons_append]

theorem packets_ne_nil (n : Nat) (data : List α) : packets n data ≠ [] := by
  rw [packets]
  split <;> exact List.cons_ne_nil _ _

theorem stagePackets_ne_nil (n : Nat) (data : List α) (asked : Nat) :
    stagePackets n data asked ≠ [] := fun h =>
  packets_ne_nil n data (List.append_eq_nil_iff.mp h).1

theorem length_of_readStage {ps rest : List (List α)} {d : List α}
    (h : readStage n asked ps = some (d, rest)) : d.length ≤ asked := by
  induction ps generalizing asked d with
  | nil => exact nomatch h
  | cons p ps ih =>
      rw [readStage] at h
      split at h
      next => exact nomatch h
      next hle =>
        split at h
        next =>
          obtain ⟨rfl, rfl⟩ := Prod.mk.inj (Option.some.inj h)
          exact Nat.le_of_not_lt hle
        next =>
          obtain ⟨⟨d', rest'⟩, hrest, heq⟩ := Option.map_eq_some_iff.mp h
          obtain ⟨rfl, rfl⟩ := Prod.mk.inj heq
          have hle' : d'.length ≤ asked - p.length := ih hrest
          rw [List.length_append]
          exact (Nat.le_sub_iff_add_le' (Nat.le_of_not_lt hle)).mp hle'

/-- A host that asks for enough reads the data and stops behind the stage. -/
theorem readStage_stagePackets (hn : 0 < n) {data : List α} (h : data.length ≤ asked) :
    readStage n asked (stagePackets n data asked) = some (data, []) := by
  induction hlen : data.length using Nat.strongRecOn generalizing data asked with
  | ind len ih =>
  by_cases hlong : n < data.length
  · have htake : (data.take n).length = n := List.length_take_of_le (Nat.le_of_lt hlong)
    have hdrop : (data.drop n).length = data.length - n := List.length_drop
    rw [stagePackets_of_lt hn hlong, readStage, htake, if_neg (by omega), if_neg (by omega),
      ih _ (by omega) (by omega) hdrop, Option.map_some, List.take_append_drop]
  · have hle : data.length ≤ n := Nat.le_of_not_lt hlong
    rw [stagePackets, packets_of_le hle]
    split
    next hends =>
      have hfull : data.length = n := Nat.le_antisymm hle hends.2.1
      rw [List.singleton_append, readStage, if_neg (by omega), if_neg (by omega), readStage,
        List.length_nil, if_neg (Nat.not_lt_zero _), if_pos (.inl hn), Option.map_some,
        List.append_nil]
    next hends =>
      rw [List.append_nil, readStage, if_neg (by omega), if_pos]
      by_cases hfull : data.length = n
      · rw [hfull] at hends
        refine .inr ?_
        by_contra hne
        exact hends ⟨Nat.dvd_refl n, Nat.le_refl n, by omega⟩
      · exact .inl (by omega)

/-- The device and the host agree on a data stage exactly when the data is no more than the host
asked for. -/
theorem readStage_stagePackets_iff (hn : 0 < n) {data : List α} :
    readStage n asked (stagePackets n data asked) = some (data, []) ↔ data.length ≤ asked :=
  ⟨length_of_readStage, readStage_stagePackets hn⟩

end Bulk
