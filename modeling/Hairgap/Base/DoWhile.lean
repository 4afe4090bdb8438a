import Hairgap.Base.Transition

/-!
A loop that acts first and tests afterwards, with the labels of its rounds. It is left after a
run whose last label, and no other, fails the test.
-/
namespace Hairgap.Base

variable {σ ι : Type}

/-- `none` without fuel, or when a round does not return. -/
def doWhile (act : σ → Option (ι × σ)) (again : ι → Bool) : Nat → σ → Option (List ι)
  | 0, _ => none
  | fuel + 1, s =>
    match act s with
    | none => none
    | some (label, t) =>
      if again label then (doWhile act again fuel t).map (label :: ·) else some [label]

theorem Steps.eq_of_nil {step : σ → ι → σ → Prop} {s t : σ} {labels : List ι}
    (run : Steps step s labels t) (nothing : labels = []) : s = t := by
  cases run with
  | nil => rfl
  | snoc => simp at nothing

/-- The first step of a run. -/
theorem Steps.uncons {step : σ → ι → σ → Prop} {s t : σ} {labels rest : List ι} {label : ι}
    (run : Steps step s labels t) (split : labels = label :: rest) :
    ∃ u, step s label u ∧ Steps step u rest t := by
  induction run generalizing rest with
  | nil => cases split
  | @snoc v w before last earlier step ih =>
    cases before with
    | nil =>
      obtain rfl := earlier.eq_of_nil rfl
      cases split
      exact ⟨w, step, .nil w⟩
    | cons first more =>
      cases split
      obtain ⟨u, begins, goes⟩ := ih rfl
      exact ⟨u, begins, .snoc goes step⟩

/-- The rounds of a loop that was left. -/
structure Rounds (act : σ → Option (ι × σ)) (again : ι → Bool) (s : σ) (labels : List ι) : Prop where
  run : ∃ t, Steps (fun s label t => act s = some (label, t)) s labels t
  last : ∃ before label, labels = before ++ [label] ∧ (∀ l ∈ before, again l = true) ∧
    again label = false

variable {act : σ → Option (ι × σ)} {again : ι → Bool} {s t : σ} {label : ι} {labels : List ι}

theorem Rounds.one (acts : act s = some (label, t)) (done : again label = false) :
    Rounds act again s [label] :=
  ⟨⟨t, .one acts⟩, [], label, rfl, nofun, done⟩

theorem Rounds.cons (acts : act s = some (label, t)) (more : again label = true)
    (rounds : Rounds act again t labels) : Rounds act again s (label :: labels) := by
  obtain ⟨⟨u, run⟩, before, last, rfl, goes, done⟩ := rounds
  have first : Steps (fun s label t => act s = some (label, t)) s [label] t := .one acts
  refine ⟨⟨u, first.trans run⟩, label :: before, last, rfl, ?_, done⟩
  intro l member
  rcases List.mem_cons.mp member with rfl | later
  · exact more
  · exact goes l later

/-- What the loop returns are its rounds, and with fuel for all of them it returns. -/
theorem doWhile_iff (fuel : Nat) :
    doWhile act again fuel s = some labels ↔ labels.length ≤ fuel ∧ Rounds act again s labels := by
  induction fuel generalizing s labels with
  | zero =>
    refine iff_of_false nofun fun ⟨short, rounds⟩ => ?_
    obtain ⟨before, label, rfl, -⟩ := rounds.last
    simp at short
  | succ fuel ih =>
    constructor
    · intro loop
      unfold doWhile at loop
      split at loop
      · cases loop
      next label t acts =>
        split at loop
        next more =>
          obtain ⟨rest, later, rfl⟩ := Option.map_eq_some_iff.mp loop
          obtain ⟨short, rounds⟩ := ih.mp later
          exact ⟨Nat.succ_le_succ short, rounds.cons acts more⟩
        next done =>
          cases loop
          exact ⟨Nat.succ_le_succ (Nat.zero_le _), .one acts (by simpa using done)⟩
    · rintro ⟨short, ⟨u, run⟩, before, last, rfl, goes, done⟩
      cases before with
      | nil =>
        obtain ⟨t, acts, -⟩ := run.uncons rfl
        simp only [doWhile, acts, done, Bool.false_eq_true, ↓reduceIte, List.nil_append]
      | cons first rest =>
        obtain ⟨t, acts, later⟩ := run.uncons rfl
        have more := goes first List.mem_cons_self
        have tail := ih.mpr ⟨Nat.le_of_succ_le_succ short, ⟨u, later⟩, rest, last, rfl,
          fun l member => goes l (List.mem_cons_of_mem _ member), done⟩
        simp only [doWhile, acts, more, ↓reduceIte, tail, Option.map_some]
        rfl

end Hairgap.Base
