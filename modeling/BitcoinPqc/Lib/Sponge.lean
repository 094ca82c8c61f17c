import Mathlib.Tactic.Common

/-!
# Sponges, one symbol at a time

A sponge takes its input symbol by symbol into the rate part of a state and permutes the state
whenever that part is full; output is read back the same way. `absorb` and `squeeze` say so
without blocks, so that the incremental laws are laws of folds: absorbing in pieces is absorbing
the concatenation (`absorb_append`), and a short squeeze is the beginning of a long one
(`squeeze_take`).
-/
namespace CSem

structure Sponge (σ α : Type) where
  rate : Nat
  perm : σ → σ
  /-- Add a symbol at a position of the rate part. -/
  addAt : σ → Nat → α → σ
  outAt : σ → Nat → α

namespace Sponge
variable {σ α : Type} (sp : Sponge σ α)

def absorbOne (st : σ × Nat) (x : α) : σ × Nat :=
  if st.2 + 1 = sp.rate then (sp.perm (sp.addAt st.1 st.2 x), 0) else (sp.addAt st.1 st.2 x, st.2 + 1)

/-- Add symbols at consecutive positions of one block. -/
def addAll : σ → Nat → List α → σ
  | s, _, [] => s
  | s, pos, x :: xs => addAll (sp.addAt s pos x) (pos + 1) xs

def absorb (st : σ × Nat) (xs : List α) : σ × Nat := xs.foldl sp.absorbOne st

/-- The state a symbol is read from: a used up block is replaced first. -/
def refill (st : σ × Nat) : σ × Nat := if st.2 = sp.rate then (sp.perm st.1, 0) else st

def squeeze : σ × Nat → Nat → List α
  | _, 0 => []
  | st, n + 1 =>
    let st := sp.refill st
    sp.outAt st.1 st.2 :: squeeze (st.1, st.2 + 1) n

@[simp] theorem absorb_cons (st : σ × Nat) (x : α) (xs : List α) :
    sp.absorb st (x :: xs) = sp.absorb (sp.absorbOne st x) xs := rfl

theorem absorb_append (st : σ × Nat) (xs ys : List α) :
    sp.absorb st (xs ++ ys) = sp.absorb (sp.absorb st xs) ys := List.foldl_append

@[simp] theorem length_squeeze (n : Nat) (st : σ × Nat) : (sp.squeeze st n).length = n := by
  induction n generalizing st with
  | zero => rfl
  | succ n ih => simp [squeeze, ih]

theorem squeeze_take {k n : Nat} (h : k ≤ n) (st : σ × Nat) : (sp.squeeze st n).take k = sp.squeeze st k := by
  induction k generalizing n st with
  | zero => simp [squeeze]
  | succ k ih =>
    obtain ⟨n, rfl⟩ : ∃ m, n = m + 1 := ⟨n - 1, by omega⟩
    simp only [squeeze, List.take_succ_cons, ih (Nat.le_of_succ_le_succ h)]

/-- The position stays inside the rate part while absorbing. -/
theorem absorb_pos (hr : 0 < sp.rate) (xs : List α) : ∀ st : σ × Nat, st.2 < sp.rate →
    (sp.absorb st xs).2 < sp.rate := by
  induction xs with
  | nil => intro st h; exact h
  | cons x xs ih =>
    intro st h
    refine ih _ ?_
    unfold absorbOne
    split
    · exact hr
    · show st.2 + 1 < sp.rate
      omega

/-- Input that does not fill the block is only added. -/
theorem absorb_short {xs : List α} : ∀ {s : σ} {pos : Nat}, pos + xs.length < sp.rate →
    sp.absorb (s, pos) xs = (sp.addAll s pos xs, pos + xs.length) := by
  induction xs with
  | nil => intro s pos _; rfl
  | cons x xs ih =>
    intro s pos h
    simp only [List.length_cons] at h
    have hne : pos + 1 ≠ sp.rate := by omega
    rw [absorb_cons, absorbOne, if_neg hne, ih (by omega), addAll, List.length_cons]
    congr 1
    omega

/-- Input that fills the block exactly is added and the state permuted. -/
theorem absorb_full {xs : List α} : ∀ {s : σ} {pos : Nat}, pos < sp.rate → pos + xs.length = sp.rate →
    sp.absorb (s, pos) xs = (sp.perm (sp.addAll s pos xs), 0) := by
  induction xs with
  | nil => intro s pos h h'; simp only [List.length_nil] at h'; omega
  | cons x xs ih =>
    intro s pos h h'
    simp only [List.length_cons] at h'
    rw [absorb_cons, addAll]
    cases xs with
    | nil => simp only [absorbOne]; rw [if_pos (by simpa using h')]; rfl
    | cons y ys =>
      simp only [List.length_cons] at h'
      have hne : pos + 1 ≠ sp.rate := by omega
      simp only [absorbOne, hne, if_false]
      exact ih (by omega) (by simp only [List.length_cons]; omega)

/-- Output up to the end of the block is read off the state as it is. -/
theorem squeeze_block (s : σ) (b : Nat) : ∀ (a pos : Nat), pos + a ≤ sp.rate →
    sp.squeeze (s, pos) (a + b) = (List.range' pos a).map (sp.outAt s) ++ sp.squeeze (s, pos + a) b := by
  intro a
  induction a with
  | zero => intro pos _; simp
  | succ a ih =>
    intro pos h
    have hne : pos ≠ sp.rate := by omega
    rw [show a + 1 + b = (a + b) + 1 by omega]
    simp only [squeeze, refill, hne, if_false, ih (pos + 1) (by omega), List.range'_succ, List.map_cons,
      List.cons_append]
    rw [show pos + 1 + a = pos + (a + 1) by omega]

/-! ## Output in pieces -/

/-- The state after `n` symbols were read. -/
def after : σ × Nat → Nat → σ × Nat
  | st, 0 => st
  | st, n + 1 => after ((sp.refill st).1, (sp.refill st).2 + 1) n

theorem squeeze_add (a b : Nat) (st : σ × Nat) :
    sp.squeeze st (a + b) = sp.squeeze st a ++ sp.squeeze (sp.after st a) b := by
  induction a generalizing st with
  | zero => rw [Nat.zero_add]; rfl
  | succ a ih =>
    rw [Nat.succ_add]
    simp only [squeeze, after, ih, List.cons_append]

theorem after_add (a b : Nat) (st : σ × Nat) : sp.after st (a + b) = sp.after (sp.after st a) b := by
  induction a generalizing st with
  | zero => rw [Nat.zero_add]; rfl
  | succ a ih =>
    rw [Nat.succ_add]
    simp only [after, ih]

theorem after_pos (hr : 0 < sp.rate) : ∀ (n : Nat) (st : σ × Nat), st.2 ≤ sp.rate → (sp.after st n).2 ≤ sp.rate
  | 0, _, h => h
  | n + 1, st, h => by
    refine after_pos hr n _ ?_
    unfold refill
    split
    · exact hr
    · show st.2 + 1 ≤ sp.rate
      omega

/-- Reading within a block changes nothing but the position. -/
theorem after_block (s : σ) : ∀ (a pos : Nat), pos + a ≤ sp.rate → sp.after (s, pos) a = (s, pos + a)
  | 0, _, _ => rfl
  | a + 1, pos, h => by
    have hne : pos ≠ sp.rate := by omega
    simp only [after, refill, hne, if_false]
    rw [after_block s a (pos + 1) (by omega), show pos + 1 + a = pos + (a + 1) by omega]

/-- A used up block is replaced before it is read from. -/
theorem squeeze_full (s : σ) {n : Nat} (hn : 0 < n) (hr : 0 < sp.rate) :
    sp.squeeze (s, sp.rate) n = sp.squeeze (sp.perm s, 0) n ∧ sp.after (s, sp.rate) n = sp.after (sp.perm s, 0) n := by
  obtain ⟨n, rfl⟩ : ∃ m, n = m + 1 := ⟨n - 1, by omega⟩
  simp only [squeeze, after, refill, if_true, Nat.ne_of_lt hr, if_false, and_self]

theorem addAll_append (xs ys : List α) : ∀ (s : σ) (pos : Nat),
    sp.addAll s pos (xs ++ ys) = sp.addAll (sp.addAll s pos xs) (pos + xs.length) ys := by
  induction xs with
  | nil => intro s pos; rfl
  | cons x xs ih =>
    intro s pos
    rw [List.cons_append, addAll, addAll, ih, List.length_cons, show pos + 1 + xs.length = pos + (xs.length + 1) by omega]

end Sponge

end CSem
