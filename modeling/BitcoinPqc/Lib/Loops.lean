import Mathlib.Algebra.Ring.Nat
import Mathlib.Data.List.Basic
import Mathlib.Tactic.Common

/-!
# Counted loops

`for (i = 0; i < n; i++)` over a state, with an invariant rule. `forRange?` is the loop whose body
may fail to return.
-/
namespace CSem

variable {σ τ : Type}

def forRange (n : Nat) (body : Nat → σ → σ) (s : σ) : σ := (List.range n).foldl (fun s i => body i s) s

def forRange? (n : Nat) (body : Nat → σ → Option σ) (s : σ) : Option σ :=
  (List.range n).foldlM (fun s i => body i s) s

@[simp] theorem forRange_zero (body : Nat → σ → σ) (s : σ) : forRange 0 body s = s := rfl

theorem forRange_succ (n : Nat) (body : Nat → σ → σ) (s : σ) :
    forRange (n + 1) body s = body n (forRange n body s) := by
  simp [forRange, List.range_succ, List.foldl_append]

theorem forRange?_succ (n : Nat) (body : Nat → σ → Option σ) (s : σ) :
    forRange? (n + 1) body s = (forRange? n body s).bind (body n) := by
  simp only [forRange?, List.range_succ, List.foldlM_append, List.foldlM_cons, List.foldlM_nil]
  cases (List.range n).foldlM (fun s i => body i s) s with
  | none => rfl
  | some t => simp

/-- **The loop rule.** -/
theorem forRange_inv {n : Nat} {body : Nat → σ → σ} {s : σ} (P : Nat → σ → Prop) (h0 : P 0 s)
    (hstep : ∀ i < n, ∀ t, P i t → P (i + 1) (body i t)) : P n (forRange n body s) := by
  induction n with
  | zero => exact h0
  | succ n ih =>
    rw [forRange_succ]
    exact hstep n (Nat.lt_succ_self n) _ (ih fun i hi => hstep i (Nat.lt_succ_of_lt hi))

/-- The loop rule for bodies that may not return: each does when the invariant holds. -/
theorem forRange?_inv {n : Nat} {body : Nat → σ → Option σ} {s : σ} (P : Nat → σ → Prop) (h0 : P 0 s)
    (hstep : ∀ i < n, ∀ t, P i t → ∃ t', body i t = some t' ∧ P (i + 1) t') :
    ∃ t, forRange? n body s = some t ∧ P n t := by
  induction n with
  | zero => exact ⟨s, rfl, h0⟩
  | succ n ih =>
    obtain ⟨t, ht, hP⟩ := ih fun i hi => hstep i (Nat.lt_succ_of_lt hi)
    obtain ⟨t', ht', hP'⟩ := hstep n (Nat.lt_succ_self n) t hP
    exact ⟨t', by rw [forRange?_succ, ht, Option.bind_some, ht'], hP'⟩

/-- What holds when such a loop has returned. -/
theorem forRange?_some {n : Nat} {body : Nat → σ → Option σ} {s t : σ} (P : Nat → σ → Prop) (h0 : P 0 s)
    (hstep : ∀ i < n, ∀ t t', P i t → body i t = some t' → P (i + 1) t') (h : forRange? n body s = some t) : P n t := by
  induction n generalizing t with
  | zero => cases h; exact h0
  | succ n ih =>
    rw [forRange?_succ] at h
    obtain ⟨t', ht', hbody⟩ := Option.bind_eq_some_iff.mp h
    exact hstep n (Nat.lt_succ_self n) t' t (ih (fun i hi => hstep i (Nat.lt_succ_of_lt hi)) ht') hbody

/-- A loop unrolled once. -/
theorem forRange_two_mul (n : Nat) (body : Nat → σ → σ) (s : σ) :
    forRange (2 * n) body s = forRange n (fun i t => body (2 * i + 1) (body (2 * i) t)) s := by
  induction n with
  | zero => rfl
  | succ n ih => rw [Nat.mul_succ, forRange_succ, forRange_succ, forRange_succ, ih]

/-- Two loops in step. -/
theorem forRange_rel {n : Nat} {body : Nat → σ → σ} {body' : Nat → τ → τ} {s : σ} {t : τ} (R : Nat → σ → τ → Prop)
    (h0 : R 0 s t) (hstep : ∀ i < n, ∀ s t, R i s t → R (i + 1) (body i s) (body' i t)) :
    R n (forRange n body s) (forRange n body' t) := by
  induction n with
  | zero => exact h0
  | succ n ih =>
    rw [forRange_succ, forRange_succ]
    exact hstep n (Nat.lt_succ_self n) _ _ (ih fun i hi => hstep i (Nat.lt_succ_of_lt hi))

end CSem
