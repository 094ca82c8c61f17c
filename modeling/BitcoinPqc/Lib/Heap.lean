import BitcoinPqc.Lib.Exec
import Mathlib.Logic.Function.Basic

/-!
# A heap with a failing allocator

A heap maps addresses to live blocks. The allocator is a parameter: at every request it may
refuse, and when it serves one it picks any address that is not live and any initial contents of
the requested size. `free` of an address that is not live, and any access outside a live block,
are undefined, so a run that is defined frees no block twice and stays inside its blocks.

What a program can observe of a heap is `block`; the rules below (`malloc_wp`, `free_wp`,
`write_wp`, `read_wp`) speak about it only.
-/
namespace CSem

variable {α : Type}

abbrev Ptr := Nat

structure Heap (α : Type) where
  block : Ptr → Option (List α)
  /-- Number of requests made so far; an allocator may decide by it. -/
  requests : Nat
  /-- Every address from `brk` on is free, so a fresh address always exists. -/
  brk : Ptr
  above : ∀ p, brk ≤ p → block p = none

structure Allocator (α : Type) where
  pick : Heap α → Nat → Option (Ptr × List α)
  fresh : ∀ {h n p bs}, pick h n = some (p, bs) → h.block p = none
  size : ∀ {h n p bs}, pick h n = some (p, bs) → bs.length = n

namespace Heap

def empty : Heap α := ⟨fun _ => none, 0, 0, fun _ _ => rfl⟩

def put (h : Heap α) (p : Ptr) (b : Option (List α)) : Heap α where
  block := Function.update h.block p b
  requests := h.requests
  brk := max h.brk (p + 1)
  above := by
    intro q hq
    have hne : q ≠ p := Nat.ne_of_gt (Nat.le_trans (Nat.le_max_right _ _) hq)
    rw [Function.update_of_ne hne]
    exact h.above q (Nat.le_trans (Nat.le_max_left _ _) hq)

def malloc (A : Allocator α) (n : Nat) : Exec (Heap α) (Option Ptr) := fun h =>
  let h' := { h with requests := h.requests + 1 }
  match A.pick h n with
  | none => some (none, h')
  | some (p, bs) => some (some p, h'.put p (some bs))

/-- `free(NULL)` does nothing. -/
def free : Option Ptr → Exec (Heap α) Unit
  | none => pure ()
  | some p => fun h => if (h.block p).isSome then some ((), h.put p none) else none

/-- Overwrite `bs.length` cells of the block at `p`, from `off` on. -/
def write (p : Ptr) (off : Nat) (bs : List α) : Exec (Heap α) Unit := fun h =>
  match h.block p with
  | none => none
  | some b =>
    if off + bs.length ≤ b.length then
      some ((), h.put p (some (b.take off ++ bs ++ b.drop (off + bs.length))))
    else none

def read (p : Ptr) (n : Nat) : Exec (Heap α) (List α) := fun h =>
  match h.block p with
  | none => none
  | some b => if n ≤ b.length then some (b.take n, h) else none

/-- The allocator serves these requests, one after another. -/
def Serves (A : Allocator α) : Heap α → List Nat → Prop
  | _, [] => True
  | h, n :: ns => ∃ p h', malloc A n h = some (some p, h') ∧ Serves A h' ns

/-! ## Rules -/

theorem malloc_wp {A : Allocator α} {n : Nat} {h : Heap α} {Q : Option Ptr → Heap α → Prop}
    (hnull : ∀ h', h'.block = h.block → A.pick h n = none → Q none h')
    (hsome : ∀ p bs h', malloc A n h = some (some p, h') → h.block p = none → bs.length = n →
      h'.block = Function.update h.block p (some bs) → Q (some p) h') : wp (malloc A n) h Q := by
  cases e : A.pick h n with
  | none => exact ⟨none, { h with requests := h.requests + 1 }, by simp only [malloc, e], hnull _ rfl e⟩
  | some r =>
    have hm : malloc A n h = some (some r.1, { h with requests := h.requests + 1 }.put r.1 (some r.2)) := by
      simp only [malloc, e]
    exact ⟨_, _, hm, hsome r.1 r.2 _ hm (A.fresh e) (A.size e) rfl⟩

theorem free_wp {p : Ptr} {b : List α} {h : Heap α} {Q : Unit → Heap α → Prop} (hp : h.block p = some b)
    (hq : ∀ h', h'.block = Function.update h.block p none → Q () h') : wp (free (some p)) h Q :=
  ⟨(), h.put p none, by simp [free, hp], hq _ rfl⟩

theorem write_wp {p : Ptr} {off : Nat} {bs b : List α} {h : Heap α} {Q : Unit → Heap α → Prop}
    (hp : h.block p = some b) (hfit : off + bs.length ≤ b.length)
    (hq : ∀ h', h'.block = Function.update h.block p (some (b.take off ++ bs ++ b.drop (off + bs.length))) →
      Q () h') : wp (write p off bs) h Q :=
  ⟨(), h.put p (some (b.take off ++ bs ++ b.drop (off + bs.length))),
    by simp only [write, hp, hfit, if_true], hq _ rfl⟩

/-- Writing a whole block. -/
theorem write_all_wp {p : Ptr} {bs b : List α} {h : Heap α} {Q : Unit → Heap α → Prop}
    (hp : h.block p = some b) (hlen : bs.length = b.length)
    (hq : ∀ h', h'.block = Function.update h.block p (some bs) → Q () h') : wp (write p 0 bs) h Q := by
  refine write_wp hp (by omega) fun h' e => hq h' ?_
  simpa [hlen] using e

theorem read_wp {p : Ptr} {n : Nat} {b : List α} {h : Heap α} {Q : List α → Heap α → Prop}
    (hp : h.block p = some b) (hn : n ≤ b.length) (hq : Q (b.take n) h) : wp (read p n) h Q :=
  ⟨b.take n, h, by simp [read, hp, hn], hq⟩

/-- Freeing a block that was just allocated gives the old blocks back. -/
theorem update_update_none {f : Ptr → Option (List α)} {p : Ptr} {b : Option (List α)} (hp : f p = none) :
    Function.update (Function.update f p b) p none = f := by
  rw [Function.update_idem, ← hp, Function.update_eq_self]

theorem update_pair_over {f : Ptr → Option (List α)} {p q : Ptr} (hne : p ≠ q) (a b x y : Option (List α)) :
    Function.update (Function.update (Function.update (Function.update f p a) q b) p x) q y =
      Function.update (Function.update f p x) q y := by
  funext i
  by_cases hi : i = q
  · simp [hi]
  · by_cases hi' : i = p
    · simp [hi', hne]
    · simp [hi, hi']

theorem update_pair_none {f : Ptr → Option (List α)} {p q : Ptr} (hne : p ≠ q) (hp : f p = none)
    (hq : f q = none) (a b : Option (List α)) :
    Function.update (Function.update (Function.update (Function.update f p a) q b) p none) q none = f := by
  rw [update_pair_over hne, ← hp, Function.update_eq_self, hp.trans hq.symm, Function.update_eq_self]

theorem serves_pick {A : Allocator α} {h : Heap α} {n : Nat} {ns : List Nat} (hs : Serves A h (n :: ns)) :
    A.pick h n ≠ none := by
  obtain ⟨p, h', hm, -⟩ := hs
  intro e
  simp [malloc, e] at hm

theorem serves_next {A : Allocator α} {h h' : Heap α} {n : Nat} {ns : List Nat} {p : Ptr}
    (hs : Serves A h (n :: ns)) (hm : malloc A n h = some (some p, h')) : Serves A h' ns := by
  obtain ⟨q, h₁, hm₁, hs⟩ := hs
  rw [hm] at hm₁
  cases hm₁
  exact hs

theorem pick_isSome_of_malloc {A : Allocator α} {h h' : Heap α} {n : Nat} {p : Ptr}
    (hm : malloc A n h = some (some p, h')) : (A.pick h n).isSome := by
  unfold malloc at hm
  split at hm
  · simp at hm
  · rename_i e
    rw [e]; rfl

end Heap

/-! ## Two allocators -/

/-- The allocator that never refuses: it hands out addresses in order. -/
def Allocator.bump (fill : α) : Allocator α where
  pick h n := some (h.brk, List.replicate n fill)
  fresh := by rintro h n p bs ⟨⟩; exact h.above _ (Nat.le_refl _)
  size := by rintro h n p bs ⟨⟩; simp

theorem Heap.bump_serves (fill : α) (ns : List Nat) (h : Heap α) : h.Serves (Allocator.bump fill) ns := by
  induction ns generalizing h with
  | nil => trivial
  | cons n ns ih => exact ⟨_, _, rfl, ih _⟩

end CSem
