import Mathlib.Logic.Relation
import Mathlib.Order.Lattice

/-!
# Walks through a text

A reader of a text comes to one place after another, each behind the one before.
`next` says where it goes from a place, `none` that it stops there.  Some places
are hits, and `IsFirst` is the first hit on the walk.

Two readers of one text may walk through different places.  They find the same
hit exactly when every hit that only one of them comes to lies behind a hit that
both come to (`IsFirst.eq_iff`).
-/

namespace Walk

universe u

variable {α : Type u}

/-- The walk from a place comes to another. -/
def Reach (next : α → Option α) : α → α → Prop := Relation.ReflTransGen fun a b => next a = some b

variable {next next' : α → Option α} {hit : α → Prop} {a b c : α} {r r' : Option α}

/-- The walk from a place it stops at. -/
theorem Reach.eq_of_stop (h : Reach next a b) (hstop : next a = none) : b = a := by
  rcases Relation.ReflTransGen.cases_head h with rfl | ⟨c, hc, -⟩
  · rfl
  · rw [hstop] at hc
    cases hc

/-- The walk from a place is the place and the walk from the next. -/
theorem reach_step (hstep : next a = some b) : Reach next a c ↔ c = a ∨ Reach next b c := by
  constructor
  · intro h
    rcases Relation.ReflTransGen.cases_head h with rfl | ⟨d, hd, hrest⟩
    · exact .inl rfl
    · exact .inr (Option.some.inj (hstep.symm.trans hd) ▸ hrest)
  · rintro (rfl | h)
    · exact .refl
    · exact .head hstep h

variable [LinearOrder α]

/-- Each place of a walk lies behind the one before. -/
def Forward (next : α → Option α) : Prop := ∀ a b, next a = some b → a < b

theorem Reach.le (hforward : Forward next) (h : Reach next a b) : a ≤ b := by
  induction h with
  | refl => exact le_rfl
  | tail _ hstep ih => exact ih.trans (hforward _ _ hstep).le

/-- A reader that goes on as another does comes to the same places. -/
theorem Reach.congr (hforward : Forward next)
    (hsame : ∀ c < b, Reach next a c → next c = next' c) (h : Reach next a b) :
    Reach next' a b := by
  induction h with
  | refl => exact .refl
  | tail hreach hstep ih =>
      have hlt := hforward _ _ hstep
      refine .tail (ih fun c hc => hsame c (hc.trans hlt)) ?_
      exact (hsame _ hlt hreach).symm.trans hstep

/-- The first hit on the walk from a place, if there is one. -/
def IsFirst (next : α → Option α) (hit : α → Prop) (a : α) : Option α → Prop
  | some b => Reach next a b ∧ hit b ∧ ∀ c, Reach next a c → hit c → b ≤ c
  | none => ∀ c, Reach next a c → ¬ hit c

theorem IsFirst.here (hforward : Forward next) (h : hit a) : IsFirst next hit a (some a) :=
  ⟨.refl, h, fun _ hc _ => hc.le hforward⟩

theorem IsFirst.stop (h : ¬ hit a) (hstop : next a = none) : IsFirst next hit a none :=
  fun _ hc => hc.eq_of_stop hstop ▸ h

theorem IsFirst.step (h : ¬ hit a) (hstep : next a = some b) (hr : IsFirst next hit b r) :
    IsFirst next hit a r := by
  have hskip {c : α} (hc : Reach next a c) (hhit : hit c) : Reach next b c :=
    ((reach_step hstep).mp hc).resolve_left fun heq => h (heq ▸ hhit)
  cases r with
  | none => exact fun c hc hhit => hr c (hskip hc hhit) hhit
  | some d => exact ⟨.head hstep hr.1, hr.2.1, fun c hc hhit => hr.2.2 c (hskip hc hhit) hhit⟩

/-- Two readers find the same hit exactly when every hit that only one of them comes to lies
behind a hit that both come to. -/
theorem IsFirst.eq_iff (h : IsFirst next hit a r) (h' : IsFirst next' hit a r') :
    r = r' ↔ ∀ c, hit c → (Reach next a c ↔ Reach next' a c) ∨
      ∃ b < c, hit b ∧ Reach next a b ∧ Reach next' a b := by
  constructor
  · rintro rfl c hc
    cases r with
    | none => exact .inl (iff_of_false (fun hr => h c hr hc) fun hr => h' c hr hc)
    | some b =>
        by_cases heq : b = c
        · subst heq
          exact .inl (iff_of_true h.1 h'.1)
        · by_cases hreach : Reach next a c ∨ Reach next' a c
          · have hle : b ≤ c := hreach.elim (h.2.2 c · hc) (h'.2.2 c · hc)
            exact .inr ⟨b, lt_of_le_of_ne hle heq, h.2.1, h.1, h'.1⟩
          · exact .inl (iff_of_false (fun hr => hreach (.inl hr)) fun hr => hreach (.inr hr))
  · intro hagree
    cases r with
    | none =>
        cases r' with
        | none => rfl
        | some c =>
            obtain hiff | ⟨b, -, hb, hreach, -⟩ := hagree c h'.2.1
            · exact absurd h'.2.1 (h c (hiff.mpr h'.1))
            · exact absurd hb (h b hreach)
    | some b =>
        cases r' with
        | none =>
            obtain hiff | ⟨c, -, hc, -, hreach⟩ := hagree b h.2.1
            · exact absurd h.2.1 (h' b (hiff.mp h.1))
            · exact absurd hc (h' c hreach)
        | some c =>
            congr 1
            apply le_antisymm
            · obtain hiff | ⟨d, hlt, hd, hreach, -⟩ := hagree c h'.2.1
              · exact h.2.2 c (hiff.mpr h'.1) h'.2.1
              · exact (h.2.2 d hreach hd).trans hlt.le
            · obtain hiff | ⟨d, hlt, hd, -, hreach⟩ := hagree b h.2.1
              · exact h'.2.2 b (hiff.mp h.1) h.2.1
              · exact (h'.2.2 d hreach hd).trans hlt.le

end Walk
