import Mathlib.Algebra.Ring.Nat
import Mathlib.Data.List.Forall2
import Mathlib.Tactic.Common

/-!
# Hash chains and their checksum

`walk f` goes along a chain from a position on, one application of `f` a step; walking in two
pieces is walking once (`walk_add`).

Digits in base `w` tell how far each chain is walked. Whoever knows the values at some digits can
reach every vector of digits that is at least as large everywhere; the checksum, the sum of what is
missing to `w - 1` written in base `w` itself, makes sure that no other message has one
(`checked_antichain`).
-/
namespace CSem.Winternitz

variable {α : Type}

/-- `steps` steps from position `start`. -/
def walk (f : Nat → α → α) : (start steps : Nat) → α → α
  | _, 0, x => x
  | start, steps + 1, x => walk f (start + 1) steps (f start x)

theorem walk_add (f : Nat → α → α) : ∀ (a b start : Nat) (x : α),
    walk f start (a + b) x = walk f (start + a) b (walk f start a x)
  | 0, b, start, x => by rw [Nat.zero_add, Nat.add_zero, walk]
  | a + 1, b, start, x => by
    rw [Nat.succ_add, walk, walk, walk_add f a b, show start + 1 + a = start + (a + 1) by omega]

theorem walk_succ (f : Nat → α → α) (start steps : Nat) (x : α) :
    walk f start (steps + 1) x = f (start + steps) (walk f start steps x) := by
  rw [walk_add, walk, walk]

theorem walk_congr {f g : Nat → α → α} : ∀ {steps start : Nat} {x : α}, (∀ k, start ≤ k → k < start + steps → ∀ y, f k y = g k y) →
    walk f start steps x = walk g start steps x
  | 0, _, _, _ => rfl
  | steps + 1, start, x, h => by
    rw [walk, walk, h start (Nat.le_refl _) (by omega)]
    exact walk_congr fun k hk hk' => h k (by omega) (by omega)

/-! ## The checksum -/

/-- What is missing to `w - 1`, over all digits. -/
def remaining (w : Nat) (D : List Nat) : Nat := (D.map (w - 1 - ·)).sum

/-- `k` digits in base `w`, the most significant first. -/
def digits (w : Nat) : (k : Nat) → Nat → List Nat
  | 0, _ => []
  | k + 1, x => digits w k (x / w) ++ [x % w]

/-- The digits with their checksum. -/
def checked (w k : Nat) (D : List Nat) : List Nat := D ++ digits w k (remaining w D)

@[simp] theorem length_digits (w k x : Nat) : (digits w k x).length = k := by
  induction k generalizing x with
  | zero => rfl
  | succ k ih => simp [digits, ih]

/-- `D` is reached from `E` by walking on. -/
abbrev Covers (D E : List Nat) : Prop := List.Forall₂ (· ≤ ·) D E

theorem Covers.append {D D' E E' : List Nat} (hlen : D.length = E.length) (h : Covers (D ++ D') (E ++ E')) :
    Covers D E ∧ Covers D' E' := by
  have htake := List.forall₂_take_append _ _ _ h
  have hdrop := List.forall₂_drop_append _ _ _ h
  rw [← hlen] at htake hdrop
  rw [List.take_left'] at htake
  · rw [List.drop_left'] at hdrop
    · exact ⟨htake, hdrop⟩
    · rfl
  · rfl

/-- Digits that are larger everywhere are those of a larger number. -/
theorem le_of_digits {w : Nat} : ∀ {k x y : Nat}, x < w ^ k → y < w ^ k → Covers (digits w k x) (digits w k y) → x ≤ y
  | 0, x, y, hx, _, _ => by simp only [Nat.pow_zero] at hx; omega
  | k + 1, x, y, hx, hy, h => by
    obtain ⟨hhigh, hlow⟩ := Covers.append (by simp) h
    have hle : x / w ≤ y / w :=
      le_of_digits (Nat.div_lt_of_lt_mul (by rwa [Nat.pow_succ'] at hx)) (Nat.div_lt_of_lt_mul (by rwa [Nat.pow_succ'] at hy)) hhigh
    have hmod : x % w ≤ y % w := by simpa using hlow
    calc x = w * (x / w) + x % w := (Nat.div_add_mod x w).symm
      _ ≤ w * (y / w) + y % w := Nat.add_le_add (Nat.mul_le_mul_left w hle) hmod
      _ = y := Nat.div_add_mod y w

theorem remaining_le (w : Nat) (D : List Nat) : remaining w D ≤ D.length * (w - 1) := by
  induction D with
  | nil => simp [remaining]
  | cons d D ih =>
    simp only [remaining, List.map_cons, List.sum_cons, List.length_cons, Nat.succ_mul] at ih ⊢
    omega

/-- Larger digits leave less, and as much only when they are the same. -/
theorem remaining_le_of_covers {w : Nat} {D E : List Nat} (hE : ∀ e ∈ E, e < w) (h : Covers D E) :
    remaining w E ≤ remaining w D ∧ (remaining w D ≤ remaining w E → D = E) := by
  induction h with
  | nil => exact ⟨Nat.le_refl _, fun _ => rfl⟩
  | @cons d e D E hde _ ih =>
    obtain ⟨hle, heq⟩ := ih fun x hx => hE x (List.mem_cons_of_mem _ hx)
    have he := hE e List.mem_cons_self
    simp only [remaining, List.map_cons, List.sum_cons] at hle heq ⊢
    refine ⟨by omega, fun hge => ?_⟩
    have htail := heq (by omega)
    rw [htail, show d = e by omega]

/-- **No digits with their checksum cover those of another message.** -/
theorem checked_antichain {w k : Nat} {D E : List Nat} (hE : ∀ e ∈ E, e < w) (hlen : D.length = E.length)
    (hk : D.length * (w - 1) < w ^ k) (h : Covers (checked w k D) (checked w k E)) : D = E := by
  obtain ⟨hmsg, hsum⟩ := Covers.append hlen h
  have hD := remaining_le w D
  have hE' := remaining_le w E
  rw [← hlen] at hE'
  exact (remaining_le_of_covers hE hmsg).2 (le_of_digits (by omega) (by omega) hsum)

end CSem.Winternitz
