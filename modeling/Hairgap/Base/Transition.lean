import Mathlib.Logic.Basic

/-!
Runs of a labelled step relation, the rule that carries an invariant along them, the
restriction of a relation to the steps that meet a condition beforehand, and the run of a
schedule.
-/
namespace Hairgap.Base

variable {σ ι : Type} {step : σ → ι → σ → Prop}

/-- A run and the labels of its steps, oldest first. -/
inductive Steps (step : σ → ι → σ → Prop) : σ → List ι → σ → Prop
  | nil (s : σ) : Steps step s [] s
  | snoc {s t u : σ} {labels : List ι} {label : ι} (before : Steps step s labels t)
      (last : step t label u) : Steps step s (labels ++ [label]) u

/-- The steps that meet a condition on the state they leave and their label. -/
def Guarded (ok : σ → ι → Prop) (step : σ → ι → σ → Prop) : σ → ι → σ → Prop :=
  fun s label t => step s label t ∧ ok s label

theorem Steps.one {s t : σ} {label : ι} (h : step s label t) : Steps step s [label] t :=
  .snoc (.nil s) h

theorem Steps.trans {s t u : σ} {xs ys : List ι} (first : Steps step s xs t)
    (second : Steps step t ys u) : Steps step s (xs ++ ys) u := by
  induction second with
  | nil => simpa using first
  | snoc _ last ih =>
    rw [← List.append_assoc]
    exact .snoc ih last

/-- What one step preserves, a run preserves; the property may speak of the labels so far. -/
theorem Steps.invariant {s t : σ} {labels : List ι} (inv : List ι → σ → Prop)
    (start : inv [] s)
    (preserved : ∀ labels u label v, inv labels u → step u label v → inv (labels ++ [label]) v)
    (run : Steps step s labels t) : inv labels t := by
  induction run with
  | nil => exact start
  | snoc _ last ih => exact preserved _ _ _ _ ih last

theorem Steps.mono {step' : σ → ι → σ → Prop} {s t : σ} {labels : List ι}
    (weaken : ∀ u label v, step u label v → step' u label v) (run : Steps step s labels t) :
    Steps step' s labels t := by
  induction run with
  | nil => exact .nil _
  | snoc _ last ih => exact .snoc ih (weaken _ _ _ last)

/-- Forgetting the condition of a guarded run. -/
theorem Steps.unguard {ok : σ → ι → Prop} {s t : σ} {labels : List ι}
    (run : Steps (Guarded ok step) s labels t) : Steps step s labels t :=
  run.mono fun _ _ _ h => h.1

/-- A property of states and the labels of the steps taken from them, all along the runs
with given labels. -/
def Along (step : σ → ι → σ → Prop) (s : σ) (labels : List ι) (p : σ → ι → Prop) : Prop :=
  ∀ before label after t, labels = before ++ label :: after → Steps step s before t → p t label

theorem Along.shorter {s : σ} {labels before after : List ι} {p : σ → ι → Prop}
    (along : Along step s labels p) (split : labels = before ++ after) :
    Along step s before p := by
  intro before' label after' t split'
  exact along before' label (after' ++ after) t (by simp [split, split'])

/-- A run along which a condition holds is a run of the guarded relation. -/
theorem Steps.guard {ok : σ → ι → Prop} {s t : σ} {labels : List ι} (run : Steps step s labels t)
    (along : Along step s labels ok) : Steps (Guarded ok step) s labels t := by
  induction run with
  | nil => exact .nil _
  | snoc before last ih =>
    exact .snoc (ih (along.shorter rfl)) ⟨last, along _ _ [] _ rfl before⟩

/-- A condition every label meets in any state holds along the run. -/
theorem Steps.guard_labels {ok : σ → ι → Prop} {s t : σ} {labels : List ι}
    (run : Steps step s labels t) (all : ∀ label ∈ labels, ∀ u, ok u label) :
    Steps (Guarded ok step) s labels t := by
  refine run.guard fun before label after u split _ => all label ?_ u
  rw [split]
  exact List.mem_append_right _ List.mem_cons_self

/-- A label that never meets the condition does not occur. -/
theorem Steps.not_mem_of_guard {ok : σ → ι → Prop} {s t : σ} {labels : List ι} {label : ι}
    (run : Steps (Guarded ok step) s labels t) (never : ∀ u, ¬ ok u label) : label ∉ labels := by
  refine run.invariant (fun labels _ => label ∉ labels) List.not_mem_nil ?_
  intro labels u other v before last member
  rcases List.mem_append.mp member with earlier | now
  · exact before earlier
  · exact never u (List.mem_singleton.mp now ▸ last.2)

/-- When a condition decides a property in every state reached under the condition, it
decides the property along every run. -/
theorem along_iff {p ok : σ → ι → Prop} {s : σ} (allowed : ι → Prop)
    (decides : ∀ before t label, Steps (Guarded ok step) s before t →
      (∀ l ∈ before, allowed l) → allowed label → (p t label ↔ ok t label))
    (labels : List ι) (all : ∀ l ∈ labels, allowed l) :
    Along step s labels p ↔ Along step s labels ok := by
  constructor
  · intro along before
    -- on the length of the run so far: its own steps meet the condition already
    induction hn : before.length using Nat.strongRecOn generalizing before with
    | ind n ih =>
      intro label after t split run
      have earlier : Along step s before ok := by
        intro before' label' after' t' split' run'
        refine ih before'.length ?_ before' rfl label' (after' ++ label :: after) t' ?_ run'
        · rw [← hn, split', List.length_append, List.length_cons]
          omega
        · rw [split, split', List.append_assoc, List.cons_append]
      refine (decides before t label (run.guard earlier) ?_ ?_).mp
        (along before label after t split run)
      · exact fun l hl => all l (by rw [split]; exact List.mem_append_left _ hl)
      · exact all label (by rw [split]; simp)
  · intro along before label after t split run
    refine (decides before t label (run.guard (along.shorter split)) ?_ ?_).mpr
      (along before label after t split run)
    · exact fun l hl => all l (by rw [split]; exact List.mem_append_left _ hl)
    · exact all label (by rw [split]; simp)

/-- The schedule in which each actor takes so many steps before the next one does. -/
def turns {α : Type} (rounds : List (Nat × α)) : List α :=
  rounds.flatMap fun (count, actor) => List.replicate count actor

/-- The run of a schedule, as far as each actor can take its turn. -/
def scheduled {α : Type} (act : σ → α → Option (ι × σ)) (s : σ) : List α → Option (List ι × σ)
  | [] => some ([], s)
  | actor :: rest =>
    match act s actor with
    | none => none
    | some (label, t) => (scheduled act t rest).map fun (labels, u) => (label :: labels, u)

theorem scheduled_steps {α : Type} {act : σ → α → Option (ι × σ)} {s t : σ} {actors : List α}
    {labels : List ι} (run : scheduled act s actors = some (labels, t)) :
    Steps (fun s label t => ∃ actor, act s actor = some (label, t)) s labels t := by
  induction actors generalizing s labels with
  | nil =>
    cases run
    exact .nil _
  | cons actor rest ih =>
    unfold scheduled at run
    split at run
    · cases run
    next label next acts =>
      obtain ⟨⟨later, last⟩, run, same⟩ := Option.map_eq_some_iff.mp run
      cases same
      have first : Steps (fun s label t => ∃ actor, act s actor = some (label, t)) s [label] next :=
        .one ⟨actor, acts⟩
      exact first.trans (ih run)

/-- A schedule all of whose steps meet a condition. -/
theorem scheduled_guarded {α : Type} {act : σ → α → Option (ι × σ)} {ok : σ → ι → Prop}
    [∀ s label, Decidable (ok s label)] {s t : σ} {actors : List α} {labels : List ι}
    (run : scheduled (fun s actor => (act s actor).filter fun next => decide (ok s next.1)) s actors =
      some (labels, t)) :
    Steps (Guarded ok fun s label t => ∃ actor, act s actor = some (label, t)) s labels t := by
  refine (scheduled_steps run).mono ?_
  rintro u label v ⟨actor, acts⟩
  obtain ⟨acts, met⟩ := Option.filter_eq_some_iff.mp acts
  exact ⟨⟨actor, acts⟩, of_decide_eq_true met⟩

end Hairgap.Base
