import Mathlib.Data.List.Basic

/-!
# Cyclic reads

`cyc xs off n` is the first `n` elements of `xs` repeated for ever, started at `off`. It is the
reference for any buffer that is read in a circle: how a total is split into requests does not
matter (`cyc_add`), and a read that ends before the buffer does is a plain slice (`cyc_slice`).
-/
namespace CSem

variable {α : Type}

def cyc (xs : List α) (off n : Nat) : List α :=
  (List.range n).filterMap fun i => xs[(off + i) % xs.length]?

/-- A read of `n` cells at `off`, undefined when it leaves the buffer. -/
def readAt (xs : List α) (off n : Nat) : Option (List α) :=
  if off + n ≤ xs.length then some ((xs.drop off).take n) else none

@[simp] theorem cyc_zero (xs : List α) (off : Nat) : cyc xs off 0 = [] := rfl

theorem cyc_add (xs : List α) (off a b : Nat) : cyc xs off (a + b) = cyc xs off a ++ cyc xs (off + a) b := by
  simp only [cyc, List.range_add, List.filterMap_append, List.filterMap_map]
  congr 1
  apply List.filterMap_congr
  intro i _
  simp [Nat.add_assoc]

theorem cyc_mod (xs : List α) (off n : Nat) : cyc xs (off % xs.length) n = cyc xs off n := by
  unfold cyc
  apply List.filterMap_congr
  intro i _
  rw [Nat.mod_add_mod]

theorem cyc_succ {xs : List α} (off n : Nat) (h : off % xs.length < xs.length) :
    cyc xs off (n + 1) = xs[off % xs.length] :: cyc xs (off + 1) n := by
  rw [Nat.add_comm n 1, cyc_add]
  simp [cyc, List.range_succ, h]

@[simp] theorem length_cyc {xs : List α} (hx : 0 < xs.length) (off n : Nat) : (cyc xs off n).length = n := by
  induction n generalizing off with
  | zero => rfl
  | succ n ih => rw [cyc_succ off n (Nat.mod_lt _ hx)]; simp [ih]

theorem mem_of_mem_cyc {xs : List α} {off n : Nat} {x : α} (h : x ∈ cyc xs off n) : x ∈ xs := by
  simp only [cyc, List.mem_filterMap] at h
  obtain ⟨i, -, hi⟩ := h
  exact List.mem_of_getElem? hi

/-- A read that does not wrap is a slice. -/
theorem cyc_slice {xs : List α} (n off : Nat) (h : off + n ≤ xs.length) :
    cyc xs off n = (xs.drop off).take n := by
  induction n generalizing off with
  | zero => simp
  | succ n ih =>
    have hlt : off < xs.length := by omega
    have hmod : off % xs.length = off := Nat.mod_eq_of_lt hlt
    rw [cyc_succ off n (by omega), ih (off + 1) (by omega), List.drop_eq_getElem_cons hlt,
      List.take_succ_cons]
    simp only [hmod]

theorem cyc_take {xs : List α} {n : Nat} (h : n ≤ xs.length) : cyc xs 0 n = xs.take n := by
  simpa using cyc_slice n 0 (by omega)

theorem readAt_take {xs : List α} {n : Nat} (h : n ≤ xs.length) : readAt xs 0 n = some (xs.take n) := by
  simp [readAt, h]

theorem readAt_all {xs : List α} {n : Nat} (h : xs.length = n) : readAt xs 0 n = some xs := by
  rw [readAt_take (by omega), List.take_of_length_le (by omega)]

theorem readAt_eq_cyc {xs : List α} {off n : Nat} (h : off + n ≤ xs.length) :
    readAt xs off n = some (cyc xs off n) := by
  simp [readAt, h, cyc_slice n off h]

end CSem
