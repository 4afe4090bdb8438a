import Mathlib.Data.List.Basic

/-!
A receiver that puts labelled pieces together, one group after the other, and hands a group over
when it has enough pieces of it. A piece of another group ends it when the group it holds is
incomplete. What comes out is told by the stretches of pieces with one label.
-/
namespace Hairgap.Base.Regroup

variable {κ π : Type} [DecidableEq κ]

section
variable (label : π → κ) (enough : κ → List π → Prop) [∀ k got, Decidable (enough k got)]

/-- One more piece of the group held, and the label to hand over if it makes enough of them. -/
def join (k : κ) (got : List π) (p : π) : Option (κ × List π) × Option κ :=
  (some (k, got ++ [p]), if enough k (got ++ [p]) ∧ ¬ enough k got then some k else none)

/-- A piece, after those of the group held if there is one; none when the receiver is at its end. -/
def step : Option (κ × List π) → π → Option (Option (κ × List π) × Option κ)
  | none, p => some (join enough (label p) [] p)
  | some (k, got), p =>
    if label p = k then some (join enough k got p)
    else if enough k got then some (join enough (label p) [] p)
    else none

/-- The labels handed over, and what is held behind the last piece. -/
def run : Option (κ × List π) → List π → List κ × Option (Option (κ × List π))
  | held, [] => ([], some held)
  | held, p :: ps =>
    match step label enough held p with
    | none => ([], none)
    | some (held, out) => ((out.toList ++ (run held ps).1), (run held ps).2)

/-- A stretch in front of others, one with the first of them if they have the same label. -/
def extend (k : κ) (got : List π) : List (κ × List π) → List (κ × List π)
  | [] => [(k, got)]
  | (k', more) :: rest => if k' = k then (k, got ++ more) :: rest else (k, got) :: (k', more) :: rest

/-- Pieces with the same label in a row. -/
def stretches : List π → List (κ × List π)
  | [] => []
  | p :: ps => extend (label p) [p] (stretches ps)

/-- A stretch that has enough pieces. -/
def complete (stretch : κ × List π) : Bool := decide (enough stretch.1 stretch.2)

/-- Labels of the stretches in front of the first incomplete one. -/
def handed (gs : List (κ × List π)) : List κ := (gs.takeWhile (complete enough)).map Prod.fst

/-- An incomplete stretch with another one behind it. -/
def cut (gs : List (κ × List π)) : Bool := gs.dropLast.any fun g => !complete enough g

variable {label enough}

theorem extend_same (k : κ) (got more : List π) (gs : List (κ × List π)) :
    extend k got (extend k more gs) = extend k (got ++ more) gs := by
  cases gs with
  | nil => simp [extend]
  | cons g rest =>
    by_cases same : g.1 = k
    · simp [extend, same]
    · simp [extend, same]

theorem extend_other {k k' : κ} (other : k' ≠ k) (got more : List π) (gs : List (κ × List π)) :
    extend k got (extend k' more gs) = (k, got) :: extend k' more gs := by
  cases gs with
  | nil => simp [extend, other]
  | cons g rest =>
    by_cases same : g.1 = k'
    · simp [extend, same, other]
    · simp [extend, same, other]

theorem extend_ne_nil (k : κ) (got : List π) (gs : List (κ × List π)) : extend k got gs ≠ [] := by
  cases gs with
  | nil => exact List.cons_ne_nil _ _
  | cons g rest =>
    rw [extend]
    split
    all_goals exact List.cons_ne_nil _ _

section Run
variable (none_ : ∀ k, ¬ enough k []) (more : ∀ k got p, enough k got → enough k (got ++ [p]))
include none_ more

/-- The run inside a group, in terms of its whole stretch and those behind it. -/
theorem run_held (k : κ) (got ps : List π) :
    (if enough k got then [k] else []) ++ (run label enough (some (k, got)) ps).1 =
        handed enough (extend k got (stretches label ps)) ∧
      ((run label enough (some (k, got)) ps).2 = none ↔
        cut enough (extend k got (stretches label ps)) = true) := by
  induction ps generalizing k got with
  | nil =>
    by_cases here : enough k got
    · simp [run, stretches, extend, handed, cut, complete, here]
    · simp [run, stretches, extend, handed, cut, complete, here]
  | cons p ps ih =>
    by_cases same : label p = k
    · obtain ⟨outs, last⟩ := ih k (got ++ [p])
      rw [stretches, same, extend_same, ← outs, ← last]
      have stepped : step label enough (some (k, got)) p = some (join enough k got p) := if_pos same
      refine ⟨?_, by rw [run, stepped]; rfl⟩
      rw [run, stepped]
      by_cases here : enough k got
      · simp [join, here, more k got p here]
      · simp only [join, here, if_false, List.nil_append, not_false_eq_true, and_true]
        split
        all_goals rfl
    · rw [stretches, extend_other same]
      by_cases here : enough k got
      · obtain ⟨outs, last⟩ := ih (label p) [p]
        have stepped : step label enough (some (k, got)) p = some (join enough (label p) [] p) := by
          rw [step, if_neg same, if_pos here]
        have first : complete enough (k, got) = true := decide_eq_true here
        constructor
        · rw [handed, List.takeWhile_cons, if_pos first, List.map_cons, ← handed, ← outs, run, stepped]
          simp only [join, if_pos here, List.nil_append, none_ (label p), not_false_eq_true, and_true,
            List.singleton_append]
          split
          all_goals rfl
        · rw [run, stepped, cut, List.dropLast_cons_of_ne_nil (extend_ne_nil _ _ _), List.any_cons,
            first, ← cut]
          exact last
      · have stepped : step label enough (some (k, got)) p = none := by
          rw [step, if_neg same, if_neg here]
        have first : complete enough (k, got) = false := decide_eq_false here
        constructor
        · rw [handed, List.takeWhile_cons, first, run, stepped, if_neg here]
          rfl
        · rw [run, stepped, cut, List.dropLast_cons_of_ne_nil (extend_ne_nil _ _ _), List.any_cons,
            first]
          simp

/-- What a receiver that holds nothing hands over, and when a stretch was cut short. -/
theorem run_stretches (ps : List π) :
    (run label enough none ps).1 = handed enough (stretches label ps) ∧
      ((run label enough none ps).2 = none ↔ cut enough (stretches label ps) = true) := by
  cases ps with
  | nil => simp [run, stretches, handed, cut]
  | cons p ps =>
    obtain ⟨outs, last⟩ := @run_held _ _ _ label enough _ none_ more (label p) [p] ps
    rw [stretches, ← outs, ← last, run, step]
    refine ⟨?_, Iff.rfl⟩
    simp only [join, List.nil_append, none_ (label p), not_false_eq_true, and_true]
    split
    all_goals rfl

end Run

omit [DecidableEq κ] in
/-- In front of the first incomplete stretch when another one follows it. -/
theorem handed_cut {gs : List (κ × List π)} (cut_ : cut enough gs = true) :
    ∃ front g h rest, gs = front ++ g :: h :: rest ∧ (∀ f ∈ front, complete enough f = true) ∧
      complete enough g = false ∧ handed enough gs = front.map Prod.fst := by
  induction gs with
  | nil => cases cut_
  | cons g gs ih =>
    cases gs with
    | nil => cases cut_
    | cons h rest =>
      cases here : complete enough g with
      | false =>
        refine ⟨[], g, h, rest, rfl, fun f member => absurd member List.not_mem_nil, here, ?_⟩
        rw [handed, List.takeWhile_cons, here]
        rfl
      | true =>
        rw [cut, List.dropLast_cons_of_ne_nil (List.cons_ne_nil _ _), List.any_cons, here] at cut_
        obtain ⟨front, g', h', rest', split, all, incomplete, same⟩ := ih cut_
        refine ⟨g :: front, g', h', rest', by rw [split, List.cons_append], ?_, incomplete, ?_⟩
        · intro f member
          rcases List.mem_cons.mp member with rfl | member
          · exact here
          · exact all f member
        · rw [handed, List.takeWhile_cons, if_pos here, List.map_cons, ← handed, same, List.map_cons]

omit [DecidableEq κ] in
/-- All complete stretches when none is cut short. -/
theorem handed_whole {gs : List (κ × List π)} (whole : cut enough gs = false) :
    handed enough gs = (gs.filter (complete enough)).map Prod.fst := by
  induction gs with
  | nil => rfl
  | cons g gs ih =>
    cases here : complete enough g with
    | true =>
      have later : cut enough gs = false := by
        cases gs with
        | nil => rfl
        | cons h rest =>
          rw [cut, List.dropLast_cons_of_ne_nil (List.cons_ne_nil _ _), List.any_cons, here] at whole
          exact whole
      rw [handed, List.takeWhile_cons, if_pos here, List.filter_cons, if_pos here, List.map_cons,
        List.map_cons, ← handed, ih later]
    | false =>
      cases gs with
      | nil => simp [handed, here]
      | cons h rest =>
        rw [cut, List.dropLast_cons_of_ne_nil (List.cons_ne_nil _ _), List.any_cons, here] at whole
        cases whole

omit [DecidableEq κ] in
/-- Only the last stretch can be incomplete when none is cut short. -/
theorem incomplete_last {gs : List (κ × List π)} (whole : cut enough gs = false) {g : κ × List π}
    (member : g ∈ gs) (incomplete : complete enough g = false) : ∃ front, gs = front ++ [g] := by
  have split := List.dropLast_concat_getLast (List.ne_nil_of_mem member)
  rw [← split] at member
  rcases List.mem_append.mp member with early | last
  · have all := List.any_eq_false.mp whole g early
    rw [incomplete] at all
    exact absurd rfl all
  · rw [← List.mem_singleton.mp last] at split
    exact ⟨gs.dropLast, split.symm⟩

end

section Sorted
variable {label : π → κ} {le : κ → κ → Prop} (antisymm : ∀ {a b}, le a b → le b a → a = b)
include antisymm

/-- Pieces sorted by their label form one stretch for each label. -/
theorem stretches_sorted {ps : List π} (sorted : (ps.map label).Pairwise le) :
    ((stretches label ps).map Prod.fst).Pairwise (fun a b => le a b ∧ a ≠ b) ∧
      (∀ k, k ∈ (stretches label ps).map Prod.fst ↔ k ∈ ps.map label) ∧
      ∀ g ∈ stretches label ps, g.2 = ps.filter fun p => decide (label p = g.1) := by
  induction ps with
  | nil => exact ⟨.nil, fun k => Iff.rfl, fun g member => absurd member List.not_mem_nil⟩
  | cons p ps ih =>
    obtain ⟨above, sorted⟩ := List.pairwise_cons.mp sorted
    obtain ⟨ascending, labels, own⟩ := ih sorted
    have unseen (absent : label p ∉ ps.map label) :
        ps.filter (fun q => decide (label q = label p)) = [] := by
      refine List.filter_eq_nil_iff.mpr fun q member same => absent ?_
      exact List.mem_map.mpr ⟨q, member, of_decide_eq_true same⟩
    have passed {k : κ} (other : k ≠ label p) : (p :: ps).filter (fun q => decide (label q = k)) =
        ps.filter fun q => decide (label q = k) :=
      List.filter_cons_of_neg (by simpa using fun same => other same.symm)
    have first : (p :: ps).filter (fun q => decide (label q = label p)) =
        p :: ps.filter fun q => decide (label q = label p) :=
      List.filter_cons_of_pos (decide_eq_true rfl)
    -- either the first stretch goes on, or its label is new
    have fresh (absent : label p ∉ ps.map label) :
        (((label p, [p]) :: stretches label ps).map Prod.fst).Pairwise (fun a b => le a b ∧ a ≠ b) ∧
          (∀ k, k ∈ ((label p, [p]) :: stretches label ps).map Prod.fst ↔ k ∈ (p :: ps).map label) ∧
          ∀ g ∈ (label p, [p]) :: stretches label ps,
            g.2 = (p :: ps).filter fun q => decide (label q = g.1) := by
      refine ⟨List.pairwise_cons.mpr ⟨fun k member => ?_, ascending⟩, fun k => ?_, fun g member => ?_⟩
      · have seen := (labels k).mp member
        exact ⟨above k seen, fun same : label p = k => absent (same ▸ seen)⟩
      · rw [List.map_cons, List.map_cons, List.mem_cons, List.mem_cons, labels]
      · rcases List.mem_cons.mp member with rfl | later
        · rw [first, unseen absent]
        · have seen := (labels g.1).mp (List.mem_map_of_mem later)
          rw [passed fun same => absent (same ▸ seen)]
          exact own g later
    rw [stretches]
    cases gs : stretches label ps with
    | nil =>
      rw [gs] at fresh labels
      exact fresh fun member => List.not_mem_nil ((labels _).mpr member)
    | cons g rest =>
      rw [gs] at fresh labels ascending own
      rw [extend]
      obtain ⟨behind, ascending⟩ := List.pairwise_cons.mp ascending
      split
      next same =>
        refine ⟨List.pairwise_cons.mpr ⟨fun k member => same ▸ behind k member, ascending⟩,
          fun k => ?_, fun h member => ?_⟩
        · have seen := labels k
          rw [List.map_cons, List.mem_cons, same] at seen
          rw [List.map_cons, List.map_cons, List.mem_cons, List.mem_cons, ← seen]
          exact ⟨.inr, fun there => there.elim .inl id⟩
        · rcases List.mem_cons.mp member with rfl | later
          · have own := own g List.mem_cons_self
            rw [same] at own
            rw [first, own]
            rfl
          · have other := (behind h.1 (List.mem_map_of_mem later)).2
            rw [passed fun equal => other (same.trans equal.symm)]
            exact own h (List.mem_cons_of_mem g later)
      next other =>
        refine fresh fun member => ?_
        have least : le (label p) g.1 := above g.1 ((labels g.1).mp List.mem_cons_self)
        rcases List.mem_cons.mp ((labels _).mpr member) with same | later
        · exact other same.symm
        · exact other (antisymm (behind _ later).1 least)

end Sorted

end Hairgap.Base.Regroup
