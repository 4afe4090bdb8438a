import Mathlib.Data.List.Basic

/-!
What a computation has put out when it is cut off, and its result if it came to one. Cut off
later, it goes on from there.
-/
namespace Hairgap.Base

structure Output (α ρ : Type) where
  emitted : List α
  result : Option ρ

namespace Output
variable {α ρ τ : Type}

/-- Cut off before anything happened. -/
def stopped : Output α ρ := ⟨[], none⟩

/-- All that a computation puts out, which then ends. -/
def done (emitted : List α) (result : ρ) : Output α ρ := ⟨emitted, some result⟩

/-- A computation behind what was put out before. -/
def after (emitted : List α) (x : Output α ρ) : Output α ρ := ⟨emitted ++ x.emitted, x.result⟩

/-- One computation behind the result of another. -/
def bind (x : Output α ρ) (f : ρ → Output α τ) : Output α τ :=
  match x.result with
  | none => ⟨x.emitted, none⟩
  | some r => (f r).after x.emitted

/-- What the second computation has put out goes on from the first, which had not ended. -/
def Leads (x y : Output α ρ) : Prop :=
  x.emitted <+: y.emitted ∧ (x.result.isSome → y = x)

/-- All that was put out and the result, of a computation that ended. -/
def whole (x : Output α ρ) : Option (List α × ρ) := x.result.map (x.emitted, ·)

variable {x y : Output α ρ} {f g : ρ → Output α τ} {xs ys : List α} {r : ρ}

@[simp] theorem after_nil : x.after [] = x := rfl

@[simp] theorem after_after : (x.after ys).after xs = x.after (xs ++ ys) := by
  simp [after, List.append_assoc]

@[simp] theorem after_emitted : (x.after xs).emitted = xs ++ x.emitted := rfl

@[simp] theorem after_result : (x.after xs).result = x.result := rfl

@[simp] theorem done_bind : (done xs r).bind f = (f r).after xs := rfl

@[simp] theorem after_done : (done ys r).after xs = done (xs ++ ys) r := rfl

theorem bind_assoc {υ : Type} {h : τ → Output α υ} :
    (x.bind f).bind h = x.bind fun r => (f r).bind h := by
  obtain ⟨emitted, result⟩ := x
  cases result with
  | none => rfl
  | some r =>
    cases ended : (f r).result <;> simp [bind, after, ended]

/-- What was put out before stays before. -/
theorem after_bind : (x.after xs).bind f = (x.bind f).after xs := by
  obtain ⟨emitted, result⟩ := x
  cases result with
  | none => rfl
  | some r => exact after_after.symm

@[simp] theorem whole_stopped : (stopped : Output α ρ).whole = none := rfl

@[simp] theorem whole_done : (done xs r).whole = some (xs, r) := rfl

@[simp] theorem whole_after :
    (x.after xs).whole = x.whole.map fun (ys, r) => (xs ++ ys, r) := by
  simp [whole, Option.map_map, Function.comp_def]

theorem whole_bind : (x.bind f).whole = x.whole.bind fun (xs, r) => ((f r).after xs).whole := by
  obtain ⟨emitted, result⟩ := x
  cases result <;> rfl

namespace Leads

theorem refl (x : Output α ρ) : Leads x x := ⟨List.prefix_rfl, fun _ => rfl⟩

theorem stopped : Leads stopped x := ⟨List.nil_prefix, nofun⟩

theorem after (leads : Leads x y) (xs : List α) : Leads (x.after xs) (y.after xs) :=
  ⟨(List.prefix_append_right_inj xs).mpr leads.1, fun ended => congrArg _ (leads.2 ended)⟩

theorem bind (leads : Leads x y) (each : ∀ r, Leads (f r) (g r)) :
    Leads (x.bind f) (y.bind g) := by
  obtain ⟨emitted, result⟩ := x
  cases result with
  | some r =>
    obtain rfl := leads.2 rfl
    exact (each r).after emitted
  | none =>
    refine ⟨leads.1.trans ?_, nofun⟩
    unfold Output.bind
    split
    · exact List.prefix_rfl
    · exact List.prefix_append _ _

end Leads

end Output

end Hairgap.Base
