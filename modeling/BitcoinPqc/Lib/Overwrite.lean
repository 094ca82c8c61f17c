import Mathlib.Logic.Function.Iterate
import Mathlib.Data.List.Iterate

/-!
# Passes that overwrite their cells in place

A pass goes from cell to cell and replaces each by a value computed from the cells as they stand.
Such a pass forgets at most one cell when the value depends on the following cell invertibly and
never on the cell it replaces (`Shifts`): two memories that agree everywhere but at the first cell
of the pass end up equal, and two that end up equal agreed there (`overwriteAll_eq_iff`). The cell
that need not agree moves on with the pass, so the same holds of any number of passes.
-/
namespace CSem

variable {ι α : Type} [DecidableEq ι]

/-- The memories agree at every cell but `p`. -/
def AgreeOff (p : ι) (b b' : ι → α) : Prop := ∀ i, i ≠ p → b i = b' i

variable (rule : ι → (ι → α) → α)

def overwrite (b : ι → α) (p : ι) : ι → α := Function.update b p (rule p b)

/-- The cells from `p` on, `n` of them, each found from the one before. -/
def overwriteAll (next : ι → ι) (n : Nat) (p : ι) (b : ι → α) : ι → α :=
  (List.iterate next p n).foldl (overwrite rule) b

/-- What is written at `p` does not depend on `p`, and determines the cell `q` once the other
cells are known. -/
structure Shifts (p q : ι) : Prop where
  ne : q ≠ p
  blind : ∀ b b', AgreeOff p b b' → rule p b = rule p b'
  recover : ∀ b b', (∀ i, i ≠ p → i ≠ q → b i = b' i) → rule p b = rule p b' → b q = b' q

variable {rule} {p q : ι} {b b' : ι → α}

theorem Shifts.overwrite_eq (h : Shifts rule p q) (hb : AgreeOff p b b') : overwrite rule b p = overwrite rule b' p := by
  funext i
  unfold overwrite
  by_cases hi : i = p
  · subst hi
    rw [Function.update_self, Function.update_self, h.blind b b' hb]
  · rw [Function.update_of_ne hi, Function.update_of_ne hi, hb i hi]

/-- **One step moves the free cell on.** -/
theorem Shifts.agreeOff_iff (h : Shifts rule p q) :
    AgreeOff q (overwrite rule b p) (overwrite rule b' p) ↔ AgreeOff p b b' := by
  constructor
  · intro hafter
    have hother : ∀ i, i ≠ p → i ≠ q → b i = b' i := by
      intro i hip hiq
      have hi := hafter i hiq
      simp only [overwrite] at hi
      rwa [Function.update_of_ne hip, Function.update_of_ne hip] at hi
    have hwritten := hafter p (Ne.symm h.ne)
    simp only [overwrite, Function.update_self] at hwritten
    intro i hip
    by_cases hiq : i = q
    · rw [hiq]
      exact h.recover b b' hother hwritten
    · exact hother i hip hiq
  · intro hbefore i _
    rw [h.overwrite_eq hbefore]

variable {next : ι → ι} (h : ∀ p, Shifts rule p (next p))
include h

theorem overwriteAll_agreeOff_iff (n : Nat) (p : ι) (b b' : ι → α) :
    AgreeOff (next^[n] p) (overwriteAll rule next n p b) (overwriteAll rule next n p b') ↔ AgreeOff p b b' := by
  induction n generalizing p b b' with
  | zero => rfl
  | succ n ih => exact (ih (next p) (overwrite rule b p) (overwrite rule b' p)).trans (h p).agreeOff_iff

/-- **A pass forgets its first cell and nothing else.** -/
theorem overwriteAll_eq_iff (n : Nat) (p : ι) (b b' : ι → α) :
    overwriteAll rule next (n + 1) p b = overwriteAll rule next (n + 1) p b' ↔ AgreeOff p b b' := by
  constructor
  · intro heq
    rw [← overwriteAll_agreeOff_iff h (n + 1) p b b', heq]
    intro i _
    rfl
  · intro hb
    have hstep := (h p).overwrite_eq hb
    show overwriteAll rule next n (next p) (overwrite rule b p) = overwriteAll rule next n (next p) (overwrite rule b' p)
    rw [hstep]

/-- Passes that end where they began: what one forgets, none after it forgets more. -/
theorem overwriteAll_iterate_eq_iff {n : Nat} {p : ι} (hp : next^[n + 1] p = p) (k : Nat) (b b' : ι → α) :
    (overwriteAll rule next (n + 1) p)^[k + 1] b = (overwriteAll rule next (n + 1) p)^[k + 1] b' ↔ AgreeOff p b b' := by
  have hpass : ∀ c c' : ι → α, AgreeOff p (overwriteAll rule next (n + 1) p c) (overwriteAll rule next (n + 1) p c') ↔
      AgreeOff p c c' := by
    intro c c'
    have hiff := overwriteAll_agreeOff_iff h (n + 1) p c c'
    rwa [hp] at hiff
  induction k generalizing b b' with
  | zero => exact overwriteAll_eq_iff h n p b b'
  | succ k ih =>
    rw [Function.iterate_succ_apply, Function.iterate_succ_apply]
    exact (ih _ _).trans (hpass b b')

end CSem
