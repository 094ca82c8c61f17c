import Mathlib.Algebra.Ring.Nat
import Mathlib.Data.List.Basic
import Mathlib.Tactic.Common

/-!
# Blocks of a buffer

A buffer of cells read and written in consecutive blocks of `n`: `block n i` is the slice
`[i*n, (i+1)*n)`, `setBlock` the copy over it, `ofBlocks` the buffer with given blocks. A buffer of
`k` blocks is determined by them (`eq_ofBlocks`).
-/
namespace CSem

variable {α : Type}

def block (n i : Nat) (bs : List α) : List α := (bs.drop (i * n)).take n

/-- Copy `x`, of `n` cells, over the block `i`. -/
def setBlock (n i : Nat) (bs x : List α) : List α := bs.take (i * n) ++ x ++ bs.drop ((i + 1) * n)

def ofBlocks (k : Nat) (f : Nat → List α) : List α := (List.range k).flatMap f

variable {n i j k : Nat} {bs x : List α}

theorem block_end_le (h : i < k) (n : Nat) : i * n + n ≤ k * n := by
  have hle : (i + 1) * n ≤ k * n := Nat.mul_le_mul_right n h
  rwa [Nat.succ_mul] at hle

theorem length_block (h : i < k) (hlen : k * n ≤ bs.length) : (block n i bs).length = n := by
  have hend := block_end_le h n
  rw [block, List.length_take, List.length_drop]
  omega

theorem length_setBlock (h : i < k) (hlen : bs.length = k * n) (hx : x.length = n) :
    (setBlock n i bs x).length = k * n := by
  have hend := block_end_le h n
  rw [setBlock, List.length_append, List.length_append, List.length_take, List.length_drop, Nat.succ_mul]
  omega

theorem block_setBlock_self (h : i < k) (hlen : bs.length = k * n) (hx : x.length = n) :
    block n i (setBlock n i bs x) = x := by
  have hend := block_end_le h n
  have htake : (bs.take (i * n)).length = i * n := by rw [List.length_take]; omega
  rw [block, setBlock, List.append_assoc, List.drop_left' htake, List.take_left' hx]

theorem block_setBlock_ne (h : i < k) (hlen : bs.length = k * n) (hx : x.length = n) (hne : j ≠ i) :
    block n j (setBlock n i bs x) = block n j bs := by
  have hend := block_end_le h n
  have htake : (bs.take (i * n)).length = i * n := by rw [List.length_take]; omega
  rcases Nat.lt_or_gt_of_ne hne with hlt | hgt
  · have hj := block_end_le hlt n
    have hshort : j * n ≤ (bs.take (i * n)).length := by omega
    rw [block, setBlock, List.append_assoc, List.drop_append_of_le_length hshort, List.take_append_of_le_length
      (by rw [List.length_drop]; omega), List.drop_take, List.take_take, block]
    congr 1
    omega
  · have hi := block_end_le hgt n
    have hlong : (bs.take (i * n) ++ x).length = (i + 1) * n := by
      rw [List.length_append, htake, hx, Nat.succ_mul]
    have hsplit : j * n = (i + 1) * n + (j * n - (i + 1) * n) := by
      rw [Nat.succ_mul]; omega
    rw [block, setBlock, hsplit, ← List.drop_drop, List.drop_left' hlong, List.drop_drop, ← hsplit, block]

theorem ofBlocks_succ (k : Nat) (f : Nat → List α) : ofBlocks (k + 1) f = ofBlocks k f ++ f k := by
  rw [ofBlocks, List.range_succ, List.flatMap_append, List.flatMap_singleton, ofBlocks]

/-- The blocks of a buffer one after another are the buffer. -/
theorem ofBlocks_block (k : Nat) (bs : List α) : ofBlocks k (fun i => block n i bs) = bs.take (k * n) := by
  induction k with
  | zero => simp [ofBlocks]
  | succ k ih => rw [ofBlocks_succ, ih, block, Nat.succ_mul, List.take_add]

theorem ofBlocks_congr {f g : Nat → List α} (h : ∀ i < k, f i = g i) : ofBlocks k f = ofBlocks k g :=
  List.flatMap_congr fun i hi => h i (List.mem_range.mp hi)

theorem eq_ofBlocks {f : Nat → List α} (hlen : bs.length = k * n) (h : ∀ i < k, block n i bs = f i) :
    bs = ofBlocks k f := by
  rw [← ofBlocks_congr h, ofBlocks_block, List.take_of_length_le (Nat.le_of_eq hlen)]

theorem length_ofBlocks {f : Nat → List α} (h : ∀ i < k, (f i).length = n) : (ofBlocks k f).length = k * n := by
  induction k with
  | zero => simp [ofBlocks]
  | succ k ih =>
    have hlast := h k (Nat.lt_succ_self k)
    have hinit := ih fun i hi => h i (Nat.lt_succ_of_lt hi)
    rw [ofBlocks_succ, List.length_append, hinit, hlast, Nat.succ_mul]

theorem block_append_left {cs : List α} (h : i < k) (hlen : bs.length = k * n) :
    block n i (bs ++ cs) = block n i bs := by
  have hend := block_end_le h n
  rw [block, List.drop_append_of_le_length (by omega), List.take_append_of_le_length (by rw [List.length_drop]; omega),
    block]

theorem block_ofBlocks {f : Nat → List α} (h : ∀ i < k, (f i).length = n) (hj : j < k) :
    block n j (ofBlocks k f) = f j := by
  induction k with
  | zero => omega
  | succ k ih =>
    have hinit : ∀ i < k, (f i).length = n := fun i hi => h i (Nat.lt_succ_of_lt hi)
    have hlen := length_ofBlocks hinit
    rw [ofBlocks_succ]
    rcases Nat.lt_succ_iff_lt_or_eq.mp hj with hlt | rfl
    · rw [block_append_left hlt hlen, ih hinit hlt]
    · rw [block, List.drop_left' hlen, List.take_of_length_le (Nat.le_of_eq (h j hj))]

/-- From a block on. -/
theorem drop_eq_block_append (n i : Nat) (bs : List α) : bs.drop (i * n) = block n i bs ++ bs.drop (i * n + n) := by
  rw [block, ← List.drop_drop, List.take_append_drop]

end CSem
