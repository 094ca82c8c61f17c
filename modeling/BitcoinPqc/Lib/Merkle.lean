import Mathlib.Data.Nat.Bitwise
import Mathlib.Tactic.Common

/-!
# Merkle trees

A perfect binary tree over `leaf 0, leaf 1, …`: `node h i` is the `i`-th node at height `h`, made
by `join` from its children; `join` is given the height and index of the node it makes. `climb`
goes up from a node with one sibling a level, and with the siblings of a leaf it reaches the node
above that leaf (`climb_siblings`).

A tree hash goes through the leaves from left to right and keeps one node a level: the left
neighbour that waits for the node being made (`Waiting`). How it carries is that of a binary
counter: after leaf `i` nodes are made at the heights `h` with `2^h ∣ i + 1`.
-/
namespace CSem.Merkle

variable {α : Type}

section
variable (join : Nat → Nat → α → α → α) (leaf : Nat → α)

def node : Nat → Nat → α
  | 0, i => leaf i
  | h + 1, i => join (h + 1) i (node h (2 * i)) (node h (2 * i + 1))

/-- From `x`, the node `i` at height `h`, up `k` levels; `sib` has a sibling for each level. -/
def climb (sib : Nat → α) : Nat → Nat → Nat → α → α
  | 0, _, _, x => x
  | k + 1, h, i, x =>
    climb sib k (h + 1) (i / 2)
      (if i % 2 = 1 then join (h + 1) (i / 2) (sib h) x else join (h + 1) (i / 2) x (sib h))

end

/-- The other child of the same parent. -/
def sibling (i : Nat) : Nat := i ^^^ 1

theorem sibling_of_even {i : Nat} (h : i % 2 = 0) : sibling i = i + 1 := by
  unfold sibling
  obtain ⟨m, rfl⟩ : ∃ m, i = 2 * m := ⟨i / 2, by omega⟩
  rw [Nat.xor_one_of_even ⟨m, by omega⟩]

theorem sibling_of_odd {i : Nat} (h : i % 2 = 1) : sibling i = i - 1 := by
  unfold sibling
  rw [Nat.xor_one_of_odd (Nat.odd_iff.mpr h)]

theorem xor_eq_one_iff {i j : Nat} : i ^^^ j = 1 ↔ i = sibling j := by
  unfold sibling
  constructor
  · intro h
    rw [← h, Nat.xor_comm, Nat.xor_assoc, Nat.xor_self, Nat.xor_zero]
  · rintro rfl
    rw [Nat.xor_comm j 1, Nat.xor_assoc, Nat.xor_self, Nat.xor_zero]

theorem sibling_lt {i m : Nat} (h : i < 2 * m) : sibling i < 2 * m := by
  rcases Nat.mod_two_eq_zero_or_one i with he | ho
  · rw [sibling_of_even he]; omega
  · rw [sibling_of_odd ho]; omega

section
variable (join : Nat → Nat → α → α → α) (leaf : Nat → α)

/-- The siblings on the way up from leaf `i`. -/
def siblings (i h : Nat) : α := node join leaf h (sibling (i / 2 ^ h))

theorem node_succ_of_even {i : Nat} (h : Nat) (he : i % 2 = 0) :
    join (h + 1) (i / 2) (node join leaf h i) (node join leaf h (sibling i)) = node join leaf (h + 1) (i / 2) := by
  rw [node, sibling_of_even he, show 2 * (i / 2) = i by omega]

theorem node_succ_of_odd {i : Nat} (h : Nat) (ho : i % 2 = 1) :
    join (h + 1) (i / 2) (node join leaf h (sibling i)) (node join leaf h i) = node join leaf (h + 1) (i / 2) := by
  rw [node, sibling_of_odd ho, show 2 * (i / 2) = i - 1 by omega, show i - 1 + 1 = i by omega]

end

theorem div_pow_succ (i h : Nat) : i / 2 ^ h / 2 = i / 2 ^ (h + 1) := by
  rw [Nat.div_div_eq_div_mul, Nat.pow_succ]

variable {join : Nat → Nat → α → α → α} {leaf : Nat → α}

variable (join leaf) in
/-- **The path of a leaf leads to the nodes above it.** -/
theorem climb_siblings (i : Nat) : ∀ k h, climb join (siblings join leaf i) k h (i / 2 ^ h) (node join leaf h (i / 2 ^ h)) =
    node join leaf (h + k) (i / 2 ^ (h + k))
  | 0, h => rfl
  | k + 1, h => by
    have ih := climb_siblings i k (h + 1)
    rw [climb, siblings]
    rw [show h + (k + 1) = h + 1 + k by omega]
    split
    · rename_i ho
      rw [node_succ_of_odd join leaf h ho, div_pow_succ]
      exact ih
    · rename_i he
      rw [node_succ_of_even join leaf h (Nat.mod_two_ne_one.mp he), div_pow_succ]
      exact ih

/-- Only the siblings of the levels climbed are read. -/
theorem climb_congr {sib sib' : Nat → α} : ∀ {k h i x}, (∀ g, h ≤ g → g < h + k → sib g = sib' g) →
    climb join sib k h i x = climb join sib' k h i x
  | 0, _, _, _, _ => rfl
  | k + 1, h, i, x, hs => by
    rw [climb, climb, hs h (Nat.le_refl h) (by omega)]
    exact climb_congr fun g hg hg' => hs g (by omega) (by omega)

/-! ## Tree hashing, leaf after leaf -/

/-- Before leaf `i`, a level holds the left neighbour of the node it makes next. -/
def Waiting (join : Nat → Nat → α → α → α) (leaf : Nat → α) (height : Nat) (stack : Nat → α) (i : Nat) : Prop :=
  ∀ h < height, i / 2 ^ h % 2 = 1 → stack h = node join leaf h (sibling (i / 2 ^ h))

/-- The siblings of leaf `t` are in `path` as far as they are made before leaf `i`. -/
def PathSoFar (join : Nat → Nat → α → α → α) (leaf : Nat → α) (height t : Nat) (path : Nat → α) (i : Nat) : Prop :=
  ∀ h < height, (sibling (t / 2 ^ h) + 1) * 2 ^ h ≤ i → path h = siblings join leaf t h

theorem waiting_zero (height : Nat) (stack : Nat → α) : Waiting join leaf height stack 0 := by
  intro h _ hodd
  rw [Nat.zero_div] at hodd
  omega

theorem pathSoFar_zero (height t : Nat) (path : Nat → α) : PathSoFar join leaf height t path 0 := by
  intro h _ hle
  have hpos : 0 < (sibling (t / 2 ^ h) + 1) * 2 ^ h := Nat.mul_pos (Nat.succ_pos _) (Nat.two_pow_pos h)
  omega

/-- A node is complete after leaf `i` exactly when `i` is its last leaf. -/
theorem carry_eq {h i : Nat} (hc : 2 ^ h ∣ i + 1) : (i / 2 ^ h + 1) * 2 ^ h = i + 1 := by
  have hpos := Nat.two_pow_pos h
  obtain ⟨m, hm⟩ := hc
  have hm0 : 0 < m := by
    rcases Nat.eq_zero_or_pos m with rfl | hp
    · omega
    · exact hp
  have hdiv : i / 2 ^ h = m - 1 := by
    refine Nat.div_eq_of_lt_le ?_ ?_
    · rw [Nat.sub_mul, Nat.mul_comm m]; omega
    · rw [show m - 1 + 1 = m by omega, Nat.mul_comm]; omega
  rw [hdiv, show m - 1 + 1 = m by omega, Nat.mul_comm]
  exact hm.symm

theorem carry_succ {h i : Nat} (hc : 2 ^ h ∣ i + 1) : 2 ^ (h + 1) ∣ i + 1 ↔ i / 2 ^ h % 2 = 1 := by
  have hpos := Nat.two_pow_pos h
  have heq := carry_eq hc
  rw [← heq, Nat.pow_succ, Nat.mul_comm (i / 2 ^ h + 1), Nat.mul_dvd_mul_iff_left hpos]
  omega

/-- Carrying ends at a left child: the node waits there, and no other level changes. -/
theorem Waiting.store {height h i : Nat} {stack stack' : Nat → α} (hw : Waiting join leaf height stack i)
    (hc : 2 ^ h ∣ i + 1) (heven : i / 2 ^ h % 2 = 0) (hself : stack' h = node join leaf h (i / 2 ^ h))
    (hother : ∀ g < height, g ≠ h → stack' g = stack g) : Waiting join leaf height stack' (i + 1) := by
  intro g hg hodd
  have heq := carry_eq hc
  rcases Nat.lt_trichotomy g h with hlt | rfl | hgt
  · -- below, `i + 1` is a multiple of `2^(g+1)`
    have hdvd : 2 ^ (g + 1) ∣ i + 1 := Nat.dvd_trans (Nat.pow_dvd_pow 2 hlt) hc
    obtain ⟨m, hm⟩ := hdvd
    rw [hm, Nat.pow_succ, Nat.mul_assoc, Nat.mul_div_cancel_left _ (Nat.two_pow_pos g)] at hodd
    omega
  · rw [← heq, Nat.mul_div_cancel _ (Nat.two_pow_pos g), sibling_of_odd (by omega), hself]
    rfl
  · -- above, the counter does not carry
    have hsame : (i + 1) / 2 ^ g = i / 2 ^ g := by
      obtain ⟨e, rfl⟩ : ∃ e, g = h + (e + 1) := ⟨g - h - 1, by omega⟩
      rw [Nat.pow_add, ← Nat.div_div_eq_div_mul, ← Nat.div_div_eq_div_mul, ← heq,
        Nat.mul_div_cancel _ (Nat.two_pow_pos h), Nat.pow_succ', ← Nat.div_div_eq_div_mul, ← Nat.div_div_eq_div_mul]
      congr 1
      omega
    rw [hother g hg (by omega), hsame]
    exact hw g hg (hsame ▸ hodd)

/-- While leaf `i` carries, the levels below `h` are up to date with it. -/
def PathBelow (join : Nat → Nat → α → α → α) (leaf : Nat → α) (height t : Nat) (path : Nat → α) (i h : Nat) : Prop :=
  (∀ g < height, g < h → (sibling (t / 2 ^ g) + 1) * 2 ^ g ≤ i + 1 → path g = siblings join leaf t g) ∧
  PathSoFar join leaf height t path i

theorem PathSoFar.below {height t i : Nat} {path : Nat → α} (hp : PathSoFar join leaf height t path i) :
    PathBelow join leaf height t path i 0 := ⟨fun _ _ h => absurd h (Nat.not_lt_zero _), hp⟩

/-- The level of the node just made is up to date once the node is stored there if it belongs to
the path. -/
theorem PathBelow.step {height t i h : Nat} {path path' : Nat → α} (hp : PathBelow join leaf height t path i h)
    (hc : 2 ^ h ∣ i + 1) (hother : ∀ g < height, g ≠ h → path' g = path g)
    (hself : path' h = if i / 2 ^ h = sibling (t / 2 ^ h) then node join leaf h (i / 2 ^ h) else path h) :
    PathBelow join leaf height t path' i (h + 1) := by
  have hpos := Nat.two_pow_pos h
  have hle : i / 2 ^ h * 2 ^ h ≤ i := Nat.div_mul_le_self i (2 ^ h)
  have heq := carry_eq hc
  constructor
  · intro g hg hgh hdone
    by_cases hne : g = h
    · subst hne
      rw [hself]
      split
      · rename_i hmine
        rw [hmine, siblings]
      · rename_i hnot
        refine hp.2 g hg ?_
        have hlt : sibling (t / 2 ^ g) + 1 ≤ i / 2 ^ g + 1 :=
          Nat.le_of_mul_le_mul_right (heq.symm ▸ hdone) hpos
        exact Nat.le_trans (Nat.mul_le_mul_right _ (by omega)) hle
    · rw [hother g hg hne]
      exact hp.1 g hg (by omega) hdone
  · intro g hg hdone
    by_cases hne : g = h
    · subst hne
      rw [hself]
      split
      · rename_i hmine
        rw [hmine, siblings]
      · exact hp.2 g hg hdone
    · rw [hother g hg hne]
      exact hp.2 g hg hdone

/-- Carrying ended at a left child: every level is up to date. -/
theorem PathBelow.finish {height t i h : Nat} {path : Nat → α} (hp : PathBelow join leaf height t path i (h + 1))
    (hc : 2 ^ h ∣ i + 1) (heven : i / 2 ^ h % 2 = 0) : PathSoFar join leaf height t path (i + 1) := by
  intro g hg hdone
  rcases Nat.lt_or_ge g (h + 1) with hlt | hge
  · exact hp.1 g hg hlt hdone
  · refine hp.2 g hg ?_
    rcases Nat.lt_or_eq_of_le hdone with hlt | heq
    · omega
    · have hdvd : 2 ^ (h + 1) ∣ i + 1 := by
        rw [← heq]
        exact Nat.dvd_trans (Nat.pow_dvd_pow 2 hge) (Nat.dvd_mul_left _ _)
      have := (carry_succ hc).mp hdvd
      omega

/-- Past the last leaf of the tree the whole path is there. -/
theorem PathBelow.all {height t i : Nat} {path : Nat → α} (hp : PathBelow join leaf height t path i height)
    (hi : i + 1 = 2 ^ height) (ht : t < 2 ^ height) : ∀ h < height, path h = siblings join leaf t h := by
  intro h hh
  refine hp.1 h hh hh ?_
  have hsplit : 2 ^ height = 2 * 2 ^ (height - h - 1) * 2 ^ h := by
    rw [← Nat.pow_succ', ← Nat.pow_add]
    congr 1
    omega
  have hlt : t / 2 ^ h < 2 * 2 ^ (height - h - 1) := by
    rw [Nat.div_lt_iff_lt_mul (Nat.two_pow_pos h), ← hsplit]
    exact ht
  rw [hi, hsplit]
  exact Nat.mul_le_mul_right _ (sibling_lt hlt)

end CSem.Merkle
