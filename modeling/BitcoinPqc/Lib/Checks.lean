import Mathlib.Tactic.Common

/-!
# When a checked computation succeeds

Reading `x = .ok a` backwards through the steps of an `Except` computation: a sequence succeeds
exactly when its steps do, a check when what it rejects is not the case.
-/
namespace Checks

variable {ε δ α β : Type}

@[simp] theorem bind_ok_iff {x : Except ε α} {f : α → Except ε β} {b : β} :
    x >>= f = .ok b ↔ ∃ a, x = .ok a ∧ f a = .ok b := by
  cases x with
  | error e =>
    constructor
    · rintro ⟨⟩
    · rintro ⟨_, ⟨⟩, -⟩
  | ok a =>
    constructor
    · exact fun h => ⟨a, rfl, h⟩
    · rintro ⟨_, ⟨⟩, h⟩
      exact h

@[simp] theorem pure_ok_iff {a b : α} : (pure a : Except ε α) = .ok b ↔ a = b :=
  ⟨Except.ok.inj, congrArg Except.ok⟩

@[simp] theorem map_ok_iff {x : Except ε α} {f : α → β} {b : β} : x.map f = .ok b ↔ ∃ a, x = .ok a ∧ f a = b := by
  cases x with
  | error e =>
    constructor
    · rintro ⟨⟩
    · rintro ⟨_, ⟨⟩, -⟩
  | ok a =>
    constructor
    · exact fun h => ⟨a, rfl, Except.ok.inj h⟩
    · rintro ⟨_, ⟨⟩, h⟩
      exact congrArg Except.ok h

/-- A check that rejects when `p` holds. -/
@[simp] theorem reject_ok_iff {p : Prop} [Decidable p] {e : ε} {x : Except ε α} {a : α} :
    (if p then .error e else x) = .ok a ↔ ¬p ∧ x = .ok a := by
  split
  · rename_i hp
    exact ⟨nofun, fun h => absurd hp h.1⟩
  · rename_i hp
    exact ⟨fun h => ⟨hp, h⟩, fun h => h.2⟩

/-- A check that accepts when `p` holds. -/
@[simp] theorem accept_ok_iff {p : Prop} [Decidable p] {e : ε} {a b : α} :
    (if p then Except.ok a else Except.error e) = .ok b ↔ p ∧ a = b := by
  split
  · rename_i hp
    exact ⟨fun h => ⟨hp, Except.ok.inj h⟩, fun h => congrArg Except.ok h.2⟩
  · rename_i hp
    exact ⟨nofun, fun h => absurd h.1 hp⟩

/-- Renaming the error changes no success. -/
@[simp] theorem renamed_ok_iff {x : Except ε α} {f : ε → δ} {a : α} : x.mapError f = .ok a ↔ x = .ok a := by
  cases x with
  | error e => exact ⟨nofun, nofun⟩
  | ok b => exact ⟨fun h => congrArg Except.ok (Except.ok.inj h), fun h => congrArg Except.ok (Except.ok.inj h)⟩

end Checks
