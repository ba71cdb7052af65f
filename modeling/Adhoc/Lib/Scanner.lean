import Mathlib.Tactic.Common

/-!
# Scanners

A *source* is what a scanner reads from: it can be asked for the end, looked at,
and moved on by one symbol.  Asking for the end may change the source, as a
refilled buffer does.  `scan` is the loop of a scanner.  Every round asks for the
end, looks at the symbol, and either consumes it or not and goes on or not.

The plainest source is the list of the symbols left (`list`).  `Views` says that a
source shows the symbols of a list, and `scan_follows` that a loop then does on it
what it does on the list.  Loops on lists end (`scan_list_isSome`), and a loop that
only skips is a `dropWhile` (`scan_list_skips`).
-/

namespace Scanner

/-- Where symbols come from. -/
structure Source (σ α : Type) where
  /-- Asks for the end. -/
  check : σ → Bool × σ
  /-- The symbol to come. -/
  peek : σ → α
  /-- Moves behind it. -/
  inc : σ → σ

/-- What a round does with its symbol: it consumes it and goes on (`next`) or ends (`last`), or
leaves it and goes on (`again`) or ends (`stop`). -/
inductive Act (τ : Type) where
  | next (t : τ)
  | again (t : τ)
  | last (t : τ)
  | stop (t : τ)

/-- The loop of a scanner, with so many rounds at most. -/
def scan {σ α τ : Type} (src : Source σ α) (body : τ → α → Act τ) :
    Nat → σ → τ → Option (σ × τ)
  | 0, _, _ => none
  | fuel + 1, s, t =>
      let (eof, s) := src.check s
      if eof then some (s, t)
      else
        match body t (src.peek s) with
        | .next t => scan src body fuel (src.inc s) t
        | .again t => scan src body fuel s t
        | .last t => some (src.inc s, t)
        | .stop t => some (s, t)

/-- A list as a source. -/
def list (α : Type) [Inhabited α] : Source (List α) α where
  check l := (l.isEmpty, l)
  peek l := l.headD default
  inc l := l.tail

/-- The source shows the symbols of the list it is related to. -/
structure Views {σ α : Type} (src : Source σ α) (V : σ → List α → Prop) : Prop where
  /-- At the end it is at the end. -/
  nil : ∀ {s}, V s [] → (src.check s).1 = true ∧ V (src.check s).2 []
  /-- Before, it shows the first symbol and moves behind it. -/
  cons : ∀ {s a l}, V s (a :: l) → (src.check s).1 = false ∧ src.peek (src.check s).2 = a ∧
    V (src.check s).2 (a :: l) ∧ V (src.inc (src.check s).2) l

variable {σ α τ : Type} {src : Source σ α} {V : σ → List α → Prop} {body : τ → α → Act τ}
  {fuel : Nat} {s : σ} {t t' : τ} {a : α} {l l' : List α}

variable [Inhabited α]

/-- One round on a list. -/
theorem scan_list_cons :
    scan (list α) body (fuel + 1) (a :: l) t =
      match body t a with
      | .next t => scan (list α) body fuel l t
      | .again t => scan (list α) body fuel (a :: l) t
      | .last t => some (l, t)
      | .stop t => some (a :: l, t) := rfl

/-- What is done on a source follows what is done on a list: the same result, and the source
shows what is left of the list. -/
def Follows {ρ : Type} (V : σ → List α → Prop) (x : Option (σ × ρ)) (y : Option (List α × ρ)) :
    Prop := ∀ l r, y = some (l, r) → ∃ s, x = some (s, r) ∧ V s l

omit [Inhabited α] in
theorem Follows.map {ρ ρ' : Type} {x : Option (σ × ρ)} {y : Option (List α × ρ)}
    (h : Follows V x y) (f : ρ → ρ') :
    Follows V (x.map (.map id f)) (y.map (.map id f)) := by
  intro l r hy
  obtain ⟨⟨l', r'⟩, hy', hr⟩ := Option.map_eq_some_iff.mp hy
  obtain ⟨s, hx, hs⟩ := h l' r' hy'
  cases hr
  exact ⟨s, by rw [hx]; rfl, hs⟩

omit [Inhabited α] in
/-- What is done without a loop follows. -/
theorem Follows.of_view {ρ : Type} {x : σ × ρ} {y : List α × ρ} (h : x.2 = y.2 ∧ V x.1 y.1) :
    Follows V (some x) (some y) := by
  rintro l r ⟨⟩
  exact ⟨x.1, congrArg some (Prod.ext rfl h.1), h.2⟩

/-- A loop on a source follows the loop on the list the source shows. -/
theorem scan_follows (h : Views src V) (hs : V s l) :
    Follows V (scan src body fuel s t) (scan (list α) body fuel l t) := by
  intro l' t' hl
  induction fuel generalizing s l t with
  | zero => cases hl
  | succ fuel ih =>
      cases l with
      | nil =>
          obtain ⟨heof, hs⟩ := h.nil hs
          cases hl
          refine ⟨_, ?_, hs⟩
          simp only [scan, heof, if_true]
      | cons a l =>
          obtain ⟨heof, hpeek, hs, hinc⟩ := h.cons hs
          rw [scan_list_cons] at hl
          simp only [scan, heof, Bool.false_eq_true, if_false, hpeek]
          cases hbody : body t a with
          | next t =>
              rw [hbody] at hl
              exact ih hinc hl
          | again t =>
              rw [hbody] at hl
              exact ih hs hl
          | last t =>
              rw [hbody] at hl
              cases hl
              exact ⟨_, rfl, hinc⟩
          | stop t =>
              rw [hbody] at hl
              cases hl
              exact ⟨_, rfl, hs⟩

/-- A list shows itself and its suffixes.  So what follows a list leaves a suffix of it. -/
theorem views_list (l₀ : List α) : Views (list α) fun s l => s = l ∧ l <:+ l₀ where
  nil := fun ⟨hs, hl⟩ => ⟨by rw [hs]; rfl, hs, hl⟩
  cons := by
    rintro s a l ⟨rfl, hl⟩
    exact ⟨rfl, rfl, ⟨rfl, hl⟩, rfl, (List.suffix_cons a l).trans hl⟩

section Ends

variable {waits : τ → Prop} [DecidablePred waits]

/-- The rounds a loop has left, where it leaves a symbol only when it waits and not twice. -/
theorem scan_list_isSome_of_waits (hbody : ∀ t a t', body t a = .again t' → waits t ∧ ¬ waits t')
    (hfuel : 2 * l.length + (if waits t then 1 else 0) < fuel) :
    (scan (list α) body fuel l t).isSome := by
  induction fuel generalizing l t with
  | zero => cases hfuel
  | succ fuel ih =>
      cases l with
      | nil => rfl
      | cons a l =>
          rw [List.length_cons] at hfuel
          rw [scan_list_cons]
          cases hact : body t a with
          | next t' =>
              refine ih ?_
              split <;> omega
          | again t' =>
              obtain ⟨hwaits, hnot⟩ := hbody t a t' hact
              rw [if_pos hwaits] at hfuel
              exact ih (by rw [if_neg hnot, List.length_cons]; omega)
          | last => rfl
          | stop => rfl

/-- A loop that leaves no symbol twice ends. -/
theorem scan_list_isSome (hbody : ∀ t a t', body t a = .again t' → waits t ∧ ¬ waits t')
    (hfuel : 2 * l.length + 1 < fuel) : (scan (list α) body fuel l t).isSome :=
  scan_list_isSome_of_waits hbody (by split <;> omega)

/-- A loop that leaves no symbol ends. -/
theorem scan_list_isSome_of_ne_again (hbody : ∀ t a t', body t a ≠ .again t')
    (hfuel : 2 * l.length + 1 < fuel) : (scan (list α) body fuel l t).isSome :=
  have hbody' : ∀ t a t', body t a = .again t' → False ∧ ¬ False := fun t a t' h =>
    absurd h (hbody t a t')
  scan_list_isSome hbody' hfuel

end Ends

/-- What a round goes on or ends with has a property. -/
def Act.All (P : τ → Prop) : Act τ → Prop
  | .next u => P u
  | .again u => P u
  | .last u => P u
  | .stop u => P u

/-- What every round keeps holds at the end of a loop. -/
theorem scan_list_invariant {P : τ → Prop} (hbody : ∀ t a, P t → (body t a).All P)
    (ht : P t) (hl : scan (list α) body fuel l t = some (l', t')) : P t' := by
  induction fuel generalizing l t with
  | zero => cases hl
  | succ fuel ih =>
      cases l with
      | nil =>
          cases hl
          exact ht
      | cons a l =>
          have hP := hbody t a ht
          rw [scan_list_cons] at hl
          cases hact : body t a with
          | next => exact ih (by rwa [hact] at hP) (by rwa [hact] at hl)
          | again => exact ih (by rwa [hact] at hP) (by rwa [hact] at hl)
          | last =>
              rw [hact] at hl hP
              cases hl
              exact hP
          | stop =>
              rw [hact] at hl hP
              cases hl
              exact hP

/-- Two rounds that do the same with their symbol, and relate what they go on with: `R l` where
`l` is what is left. -/
inductive Act.Rel {τ' : Type} (R : List α → τ → τ' → Prop) (a : α) (l : List α) :
    Act τ → Act τ' → Prop where
  | next {u u'} : R l u u' → Rel R a l (.next u) (.next u')
  | again {u u'} : R (a :: l) u u' → Rel R a l (.again u) (.again u')
  | last {u u'} : R l u u' → Rel R a l (.last u) (.last u')
  | stop {u u'} : R (a :: l) u u' → Rel R a l (.stop u) (.stop u')

omit [Inhabited α] in
theorem Act.Rel.refl {R : List α → τ → τ → Prop} (h : ∀ l u, R l u u) (x : Act τ) :
    Act.Rel R a l x x := by
  cases x with
  | next => exact .next (h ..)
  | again => exact .again (h ..)
  | last => exact .last (h ..)
  | stop => exact .stop (h ..)

omit [Inhabited α] in
/-- Rounds that ask the same are related when their branches are. -/
theorem Act.Rel.ite {τ' : Type} {R : List α → τ → τ' → Prop} {c : Prop} [Decidable c]
    {x y : Act τ} {x' y' : Act τ'} (h : c → Act.Rel R a l x x') (h' : ¬ c → Act.Rel R a l y y') :
    Act.Rel R a l (if c then x else y) (if c then x' else y') := by
  split
  next hc => exact h hc
  next hc => exact h' hc

/-- Two loops leave the source the same and end related, or neither ends. -/
def Alongside {τ' : Type} (R : τ → τ' → Prop) (x : Option (σ × τ)) (y : Option (σ × τ')) : Prop :=
  Option.Rel (fun x y : σ × _ => x.1 = y.1 ∧ R x.2 y.2) x y

omit [Inhabited α] in
theorem Alongside.map {τ' ρ ρ' : Type} {R : τ → τ' → Prop} {S : ρ → ρ' → Prop} {f : τ → ρ}
    {g : τ' → ρ'} {x : Option (σ × τ)} {y : Option (σ × τ')} (h : Alongside R x y)
    (hfg : ∀ t t', R t t' → S (f t) (g t')) :
    Alongside S (x.map (.map id f)) (y.map (.map id g)) := by
  cases h with
  | none => exact .none
  | some hxy => exact .some ⟨hxy.1, hfg _ _ hxy.2⟩

omit [Inhabited α] in
/-- Loops whose rounds are related, whatever is left, go side by side. -/
theorem scan_rel {τ' : Type} {body' : τ' → α → Act τ'} {R : τ → τ' → Prop}
    (hbody : ∀ a t t', R t t' → Act.Rel (fun _ => R) a [] (body t a) (body' t' a)) {t' : τ'}
    (ht : R t t') (fuel : Nat) (s : σ) :
    Alongside R (scan src body fuel s t) (scan src body' fuel s t') := by
  induction fuel generalizing s t t' with
  | zero => exact .none
  | succ fuel ih =>
      simp only [scan]
      cases (src.check s).1 with
      | true => exact .some ⟨rfl, ht⟩
      | false =>
          have hrel := hbody (src.peek (src.check s).2) t t' ht
          generalize body t (src.peek (src.check s).2) = x at *
          generalize body' t' (src.peek (src.check s).2) = y at *
          cases hrel with
          | next h => exact ih h _
          | again h => exact ih h _
          | last h => exact .some ⟨rfl, h⟩
          | stop h => exact .some ⟨rfl, h⟩

/-- Loops whose rounds are related end at the same place and related. -/
theorem scan_list_rel {τ' : Type} {body' : τ' → α → Act τ'} {R : List α → τ → τ' → Prop}
    (hbody : ∀ a l t t', R (a :: l) t t' → Act.Rel R a l (body t a) (body' t' a))
    {t' : τ'} (ht : R l t t') (fuel : Nat) :
    Option.Rel (fun x y => x.1 = y.1 ∧ R x.1 x.2 y.2) (scan (list α) body fuel l t)
      (scan (list α) body' fuel l t') := by
  induction fuel generalizing l t t' with
  | zero => exact .none
  | succ fuel ih =>
      cases l with
      | nil => exact .some ⟨rfl, ht⟩
      | cons a l =>
          rw [scan_list_cons, scan_list_cons]
          have hrel := hbody a l t t' ht
          generalize body t a = x at *
          generalize body' t' a = y at *
          cases hrel with
          | next h => exact ih h
          | again h => exact ih h
          | last h => exact .some ⟨rfl, h⟩
          | stop h => exact .some ⟨rfl, h⟩

/-- The longest word of a language that a list begins with. -/
structure Longest (S : List α → Prop) (l w : List α) : Prop where
  isPrefix : w <+: l
  mem : S w
  length_le : ∀ w', w' <+: l → S w' → w'.length ≤ w.length

omit [Inhabited α] in
/-- There is one at most. -/
theorem Longest.unique {S : List α → Prop} {w w' : List α} (h : Longest S l w)
    (h' : Longest S l w') : w = w' := by
  have hlen : w.length = w'.length :=
    Nat.le_antisymm (h'.length_le w h.isPrefix h.mem) (h.length_le w' h'.isPrefix h'.mem)
  rw [List.prefix_iff_eq_take.mp h.isPrefix, hlen]
  exact (List.prefix_iff_eq_take.mp h'.isPrefix).symm

omit [Inhabited α] in
theorem Longest.congr {S S' : List α → Prop} {w : List α} (h : Longest S l w)
    (hS : ∀ w, w <+: l → (S w ↔ S' w)) : Longest S' l w where
  isPrefix := h.isPrefix
  mem := (hS w h.isPrefix).mp h.mem
  length_le := fun w' hw' hmem => h.length_le w' hw' ((hS w' hw').mpr hmem)

/-- A round is for the languages `L`: what it goes on with takes what is behind its symbol, and it
ends where no word begins with that.  `count` has what was consumed. -/
def Act.Takes (L : τ → List α → Prop) (count : τ → Nat) (t : τ) (a : α) : Act τ → Prop
  | .next u => count u = count t + 1 ∧ ∀ w, L t (a :: w) ↔ L u w
  | .again u => count u = count t ∧ ∀ w, L t (a :: w) ↔ L u (a :: w)
  | .last _ => False
  | .stop u => count u = count t ∧ ∀ w, ¬ L t (a :: w)

/-- A loop whose rounds are for some languages consumes the longest word. -/
theorem scan_list_longest {L : τ → List α → Prop} {count : τ → Nat} {P : τ → Prop}
    (hnil : ∀ t, L t []) (hbody : ∀ t a, P t → (body t a).Takes L count t a ∧ (body t a).All P)
    (ht : P t) (hl : scan (list α) body fuel l t = some (l', t')) :
    ∃ w, l = w ++ l' ∧ Longest (L t) l w ∧ count t' = count t + w.length := by
  induction fuel generalizing l t with
  | zero => cases hl
  | succ fuel ih =>
      cases l with
      | nil =>
          cases hl
          exact ⟨[], rfl, ⟨List.prefix_rfl, hnil _, fun w' hw' _ => hw'.length_le⟩, rfl⟩
      | cons a l =>
          obtain ⟨htakes, hP⟩ := hbody t a ht
          rw [scan_list_cons] at hl
          cases hact : body t a with
          | next u =>
              rw [hact] at hl htakes hP
              obtain ⟨w, rfl, hlong, hcount⟩ := ih hP hl
              refine ⟨a :: w, rfl, ⟨?_, (htakes.2 w).mpr hlong.mem, fun w' hw' hmem => ?_⟩, ?_⟩
              · exact List.prefix_append (a :: w) l'
              · cases w' with
                | nil => exact Nat.zero_le _
                | cons b w' =>
                    obtain ⟨rfl, htail⟩ := List.cons_prefix_cons.mp hw'
                    exact Nat.succ_le_succ (hlong.length_le w' htail ((htakes.2 w').mp hmem))
              · rw [hcount, htakes.1, List.length_cons]
                omega
          | again u =>
              rw [hact] at hl htakes hP
              obtain ⟨w, hw, hlong, hcount⟩ := ih hP hl
              have hiff (w' : List α) (hw' : w' <+: a :: l) : L u w' ↔ L t w' := by
                cases w' with
                | nil => exact iff_of_true (hnil u) (hnil t)
                | cons b w' =>
                    obtain ⟨rfl, -⟩ := List.cons_prefix_cons.mp hw'
                    exact (htakes.2 w').symm
              exact ⟨w, hw, hlong.congr hiff, by rw [hcount, htakes.1]⟩
          | last u =>
              rw [hact] at htakes
              exact htakes.elim
          | stop u =>
              rw [hact] at hl htakes
              cases hl
              refine ⟨[], rfl, ⟨List.nil_prefix, hnil t, fun w' hw' hmem => ?_⟩, htakes.1⟩
              cases w' with
              | nil => exact Nat.le_refl 0
              | cons b w' =>
                  obtain ⟨rfl, -⟩ := List.cons_prefix_cons.mp hw'
                  exact absurd hmem (htakes.2 w')

/-- A loop that skips the symbols of a kind. -/
theorem scan_list_skips {p : α → Bool} (hnext : ∀ t a, p a = true → ∃ u, body t a = .next u)
    (hstop : ∀ t a, p a = false → ∃ u, body t a = .stop u) (hfuel : l.length < fuel) :
    ∃ t', scan (list α) body fuel l t = some (l.dropWhile p, t') := by
  induction fuel generalizing l t with
  | zero => cases hfuel
  | succ fuel ih =>
      cases l with
      | nil => exact ⟨t, rfl⟩
      | cons a l =>
          rw [scan_list_cons]
          cases hp : p a with
          | true =>
              obtain ⟨u, hu⟩ := hnext t a hp
              rw [hu, List.dropWhile_cons_of_pos hp]
              exact ih (Nat.lt_of_succ_lt_succ hfuel)
          | false =>
              obtain ⟨u, hu⟩ := hstop t a hp
              rw [hu, List.dropWhile_cons_of_neg (by simp [hp])]
              exact ⟨u, rfl⟩

end Scanner
