import BitcoinPqc.Lib.Heap

/-!
# Who owns which block

A program keeps its blocks in slots: a slot is empty or holds an address with a recorded size. A
`Ledger` says that every held address is live, that its recorded size agrees with the block as
the slot demands (`rel`), and that no address is held twice; an exact one has no other live
blocks. Acquiring a fresh block and releasing a held one keep both.
-/
namespace CSem

variable {F α : Type}

structure Ledger (rel : F → Nat → Nat → Prop) (slot : F → Option (Ptr × Nat))
    (block : Ptr → Option (List α)) : Prop where
  held : ∀ f p n, slot f = some (p, n) → ∃ b, block p = some b ∧ rel f n b.length
  once : ∀ f g p n m, slot f = some (p, n) → slot g = some (p, m) → f = g

/-- No live block is outside the ledger. -/
def Ledger.Exact (slot : F → Option (Ptr × Nat)) (block : Ptr → Option (List α)) : Prop :=
  ∀ p, block p ≠ none → ∃ f n, slot f = some (p, n)

/-- Releasing what a slot holds: an empty slot gives nothing back. -/
def dropSlot (block : Ptr → Option (List α)) : Option Ptr → Ptr → Option (List α)
  | none => block
  | some p => Function.update block p none

namespace Ledger
variable [DecidableEq F] {rel : F → Nat → Nat → Prop} {slot : F → Option (Ptr × Nat)}
  {block : Ptr → Option (List α)} {f : F} {p : Ptr} {n : Nat} {b : List α}

theorem acquire (h : Ledger rel slot block) (hp : block p = none) (hr : rel f n b.length) :
    Ledger rel (Function.update slot f (some (p, n))) (Function.update block p (some b)) where
  held g q m hg := by
    by_cases hgf : g = f
    · subst hgf
      rw [Function.update_self] at hg
      cases hg
      exact ⟨b, Function.update_self .., hr⟩
    · rw [Function.update_of_ne hgf] at hg
      obtain ⟨c, hc, hm⟩ := h.held g q m hg
      have hqp : q ≠ p := by rintro rfl; rw [hp] at hc; cases hc
      exact ⟨c, by rw [Function.update_of_ne hqp, hc], hm⟩
  once g g' q m m' hg hg' := by
    have hfree : ∀ e k, slot e = some (p, k) → False := by
      intro e k he
      obtain ⟨c, hc, -⟩ := h.held e p k he
      rw [hp] at hc
      cases hc
    by_cases hgf : g = f <;> by_cases hgf' : g' = f
    · rw [hgf, hgf']
    · subst hgf
      rw [Function.update_self] at hg
      rw [Function.update_of_ne hgf'] at hg'
      cases hg
      exact (hfree g' _ hg').elim
    · subst hgf'
      rw [Function.update_self] at hg'
      rw [Function.update_of_ne hgf] at hg
      cases hg'
      exact (hfree g _ hg).elim
    · rw [Function.update_of_ne hgf] at hg
      rw [Function.update_of_ne hgf'] at hg'
      exact h.once g g' q m m' hg hg'

theorem release (h : Ledger rel slot block) (hf : slot f = some (p, n)) :
    Ledger rel (Function.update slot f none) (Function.update block p none) where
  held g q m hg := by
    have hgf : g ≠ f := by rintro rfl; simp at hg
    rw [Function.update_of_ne hgf] at hg
    obtain ⟨c, hc, hm⟩ := h.held g q m hg
    have hqp : q ≠ p := by rintro rfl; exact hgf (h.once g f q m n hg hf)
    exact ⟨c, by rw [Function.update_of_ne hqp, hc], hm⟩
  once g g' q m m' hg hg' := by
    have hgf : g ≠ f := by rintro rfl; simp at hg
    have hgf' : g' ≠ f := by rintro rfl; simp at hg'
    rw [Function.update_of_ne hgf] at hg
    rw [Function.update_of_ne hgf'] at hg'
    exact h.once g g' q m m' hg hg'

theorem Exact.acquire (h : Exact slot block) (hf : slot f = none) :
    Exact (Function.update slot f (some (p, n))) (Function.update block p (some b)) := by
  intro q hq
  by_cases hqp : q = p
  · exact ⟨f, n, by rw [hqp, Function.update_self]⟩
  · rw [Function.update_of_ne hqp] at hq
    obtain ⟨g, m, hg⟩ := h q hq
    have hgf : g ≠ f := by rintro rfl; rw [hf] at hg; cases hg
    exact ⟨g, m, by rw [Function.update_of_ne hgf, hg]⟩

theorem Exact.release (h : Exact slot block) (hf : slot f = some (p, n)) :
    Exact (Function.update slot f none) (Function.update block p none) := by
  intro q hq
  have hqp : q ≠ p := by rintro rfl; simp at hq
  rw [Function.update_of_ne hqp] at hq
  obtain ⟨g, m, hg⟩ := h q hq
  have hgf : g ≠ f := by
    rintro rfl
    rw [hf] at hg
    cases hg
    exact hqp rfl
  exact ⟨g, m, by rw [Function.update_of_ne hgf, hg]⟩

theorem drop {q : Option Ptr} (h : Ledger rel slot block) (hf : slot f = q.map (·, n)) :
    Ledger rel (Function.update slot f none) (dropSlot block q) := by
  cases q with
  | none =>
    have hsame : Function.update slot f none = slot := by
      rw [show (none : Option (Ptr × Nat)) = slot f from hf.symm, Function.update_eq_self]
    rw [hsame]
    exact h
  | some q => exact h.release hf

theorem Exact.drop {q : Option Ptr} (h : Exact slot block) (hf : slot f = q.map (·, n)) :
    Exact (Function.update slot f none) (dropSlot block q) := by
  cases q with
  | none =>
    have hsame : Function.update slot f none = slot := by
      rw [show (none : Option (Ptr × Nat)) = slot f from hf.symm, Function.update_eq_self]
    rw [hsame]
    exact h
  | some q => exact h.release hf

/-- What a call does to a ledger: it acquires fresh blocks and drops held ones. `P` is what makes
an acquiring slot empty beforehand. -/
inductive Moves (rel : F → Nat → Nat → Prop) (P : Prop) (slot : F → Option (Ptr × Nat))
    (block : Ptr → Option (List α)) : (F → Option (Ptr × Nat)) → (Ptr → Option (List α)) → Prop where
  | refl : Moves rel P slot block slot block
  | acquire {slot' block'} (f : F) (p : Ptr) (n : Nat) (b : List α) (rest : Moves rel P slot block slot' block')
      (fresh : block' p = none) (size : rel f n b.length) (empty : P → slot' f = none) :
      Moves rel P slot block (Function.update slot' f (some (p, n))) (Function.update block' p (some b))
  | drop {slot' block'} (f : F) (q : Option Ptr) (n : Nat) (rest : Moves rel P slot block slot' block')
      (held : slot' f = q.map (·, n)) :
      Moves rel P slot block (Function.update slot' f none) (dropSlot block' q)

variable {P : Prop} {slot' : F → Option (Ptr × Nat)} {block' : Ptr → Option (List α)}

theorem Moves.ledger (h : Ledger rel slot block) (m : Moves rel P slot block slot' block') :
    Ledger rel slot' block' := by
  induction m with
  | refl => exact h
  | acquire f p n b rest fresh size empty ih => exact ih.acquire fresh size
  | drop f q n rest held ih => exact ih.drop held

theorem Moves.exact (h : Exact slot block) (hP : P) (m : Moves rel P slot block slot' block') :
    Exact slot' block' := by
  induction m with
  | refl => exact h
  | acquire f p n b rest fresh size empty ih => exact ih.acquire (empty hP)
  | drop f q n rest held ih => exact ih.drop held

end Ledger

end CSem
