import Mathlib.Algebra.BigOperators.Group.Finset.Basic
import Mathlib.Algebra.Module.LinearMap.Basic
import Mathlib.Tactic.LinearCombination
import Mathlib.Tactic.Ring

/-!
# Number theoretic transforms

The transform of length `2^L` over a commutative ring, layer after layer: `split len z` takes blocks
of length `2*len` apart, with one factor a block, and `merge` puts them together. Factors that are
inverse to each other undo a layer up to a factor of two, so that `backward` undoes `forward` and
the other way round (`backward_forward`, `forward_backward`).

When the factor of a block is a square root of that of the block it came from (`Roots`), the blocks
of a layer are remainders of one polynomial, and `forward` evaluates it at the last layer's roots
(`forward_eq_eval`).
-/
namespace CSem.Ntt

variable {R : Type} [CommRing R]

/-! ## One layer -/

/-- `k` is in the first or the second half of a block. -/
theorem halves {len : ℕ} (hlen : 0 < len) (k : ℕ) :
    ∃ b i, i < len ∧ (k = 2 * len * b + i ∨ k = 2 * len * b + i + len) := by
  have hk := Nat.div_add_mod k (2 * len)
  have hr := Nat.mod_lt k (show 0 < 2 * len by omega)
  rcases Nat.lt_or_ge (k % (2 * len)) len with hlt | hge
  · exact ⟨k / (2 * len), k % (2 * len), hlt, .inl hk.symm⟩
  · exact ⟨k / (2 * len), k % (2 * len) - len, by omega, .inr (by omega)⟩

theorem div_mod_first {len i : ℕ} (hi : i < len) (b : ℕ) :
    (2 * len * b + i) / (2 * len) = b ∧ (2 * len * b + i) % (2 * len) = i := by
  have hlt : i < 2 * len := by omega
  rw [Nat.mul_add_div (by omega), Nat.mul_add_mod, Nat.div_eq_of_lt hlt, Nat.mod_eq_of_lt hlt]
  exact ⟨rfl, rfl⟩

theorem div_mod_second {len i : ℕ} (hi : i < len) (b : ℕ) :
    (2 * len * b + i + len) / (2 * len) = b ∧ (2 * len * b + i + len) % (2 * len) = i + len := by
  have hlt : i + len < 2 * len := by omega
  rw [Nat.add_assoc, Nat.mul_add_div (by omega), Nat.mul_add_mod, Nat.div_eq_of_lt hlt, Nat.mod_eq_of_lt hlt]
  exact ⟨rfl, rfl⟩

/-- `(x, y)` becomes `(x + z*y, x - z*y)`. -/
def split (len : ℕ) (z : ℕ → R) : (ℕ → R) →ₗ[R] (ℕ → R) where
  toFun a k :=
    if k % (2 * len) < len then a k + z (k / (2 * len)) * a (k + len)
    else a (k - len) - z (k / (2 * len)) * a k
  map_add' a b := by
    funext k
    simp only [Pi.add_apply]
    split_ifs <;> ring
  map_smul' c a := by
    funext k
    simp only [Pi.smul_apply, smul_eq_mul, RingHom.id_apply]
    split_ifs <;> ring

/-- `(x, y)` becomes `(x + y, z*(x - y))`. -/
def merge (len : ℕ) (z : ℕ → R) : (ℕ → R) →ₗ[R] (ℕ → R) where
  toFun a k :=
    if k % (2 * len) < len then a k + a (k + len)
    else z (k / (2 * len)) * (a (k - len) - a k)
  map_add' a b := by
    funext k
    simp only [Pi.add_apply]
    split_ifs <;> ring
  map_smul' c a := by
    funext k
    simp only [Pi.smul_apply, smul_eq_mul, RingHom.id_apply]
    split_ifs <;> ring

theorem split_apply (len : ℕ) (z a : ℕ → R) (k : ℕ) : split len z a k =
    if k % (2 * len) < len then a k + z (k / (2 * len)) * a (k + len) else a (k - len) - z (k / (2 * len)) * a k := rfl

theorem merge_apply (len : ℕ) (z a : ℕ → R) (k : ℕ) : merge len z a k =
    if k % (2 * len) < len then a k + a (k + len) else z (k / (2 * len)) * (a (k - len) - a k) := rfl

section
variable {len i : ℕ} (hi : i < len) (z : ℕ → R) (a : ℕ → R) (b : ℕ)
include hi

theorem split_first : split len z a (2 * len * b + i) = a (2 * len * b + i) + z b * a (2 * len * b + i + len) := by
  obtain ⟨hdiv, hmod⟩ := div_mod_first hi b
  rw [split_apply, hmod, hdiv, if_pos hi]

theorem split_second : split len z a (2 * len * b + i + len) = a (2 * len * b + i) - z b * a (2 * len * b + i + len) := by
  obtain ⟨hdiv, hmod⟩ := div_mod_second hi b
  rw [split_apply, hmod, hdiv, if_neg (show ¬ i + len < len by omega), Nat.add_sub_cancel]

theorem merge_first : merge len z a (2 * len * b + i) = a (2 * len * b + i) + a (2 * len * b + i + len) := by
  obtain ⟨-, hmod⟩ := div_mod_first hi b
  rw [merge_apply, hmod, if_pos hi]

theorem merge_second :
    merge len z a (2 * len * b + i + len) = z b * (a (2 * len * b + i) - a (2 * len * b + i + len)) := by
  obtain ⟨hdiv, hmod⟩ := div_mod_second hi b
  rw [merge_apply, hmod, hdiv, if_neg (show ¬ i + len < len by omega), Nat.add_sub_cancel]

end

/-- A layer mixes whole blocks. -/
theorem pair_lt {len m b i : ℕ} (hm : 2 * len ∣ m) (hi : i < len) (hlt : 2 * len * b + i < m) : 2 * len * b + i + len < m := by
  obtain ⟨t, rfl⟩ := hm
  have hb : b < t := Nat.lt_of_mul_lt_mul_left (Nat.lt_of_le_of_lt (Nat.le_add_right _ i) hlt)
  have hend : 2 * len * (b + 1) ≤ 2 * len * t := Nat.mul_le_mul_left _ hb
  rw [Nat.mul_add, Nat.mul_one] at hend
  omega

section
variable {len m : ℕ} (hlen : 0 < len) (hm : 2 * len ∣ m) (z : ℕ → R) {a a' : ℕ → R} (h : ∀ k < m, a k = a' k)
include hlen hm h

theorem split_congr : ∀ k < m, split len z a k = split len z a' k := by
  intro k hk
  obtain ⟨b, i, hi, rfl | rfl⟩ := halves hlen k
  · rw [split_first hi, split_first hi, h _ hk, h _ (pair_lt hm hi hk)]
  · rw [split_second hi, split_second hi, h _ hk, h _ (by omega)]

theorem merge_congr : ∀ k < m, merge len z a k = merge len z a' k := by
  intro k hk
  obtain ⟨b, i, hi, rfl | rfl⟩ := halves hlen k
  · rw [merge_first hi, merge_first hi, h _ hk, h _ (pair_lt hm hi hk)]
  · rw [merge_second hi, merge_second hi, h _ hk, h _ (by omega)]

end

section
variable {len : ℕ} (hlen : 0 < len) {z z' : ℕ → R} (h : ∀ b, z' b * z b = 1)
include hlen h

theorem merge_split (a : ℕ → R) : merge len z' (split len z a) = (2 : R) • a := by
  funext k
  obtain ⟨b, i, hi, rfl | rfl⟩ := halves hlen k
  · rw [merge_first hi, split_first hi, split_second hi, Pi.smul_apply, smul_eq_mul]
    ring
  · rw [merge_second hi, split_first hi, split_second hi, Pi.smul_apply, smul_eq_mul]
    linear_combination (2 * a (2 * len * b + i + len)) * h b

theorem split_merge (a : ℕ → R) : split len z (merge len z' a) = (2 : R) • a := by
  funext k
  obtain ⟨b, i, hi, rfl | rfl⟩ := halves hlen k
  · rw [split_first hi, merge_first hi, merge_second hi, Pi.smul_apply, smul_eq_mul]
    linear_combination (a (2 * len * b + i) - a (2 * len * b + i + len)) * h b
  · rw [split_second hi, merge_first hi, merge_second hi, Pi.smul_apply, smul_eq_mul]
    linear_combination (a (2 * len * b + i + len) - a (2 * len * b + i)) * h b

end

/-! ## All layers -/

section
variable (L : ℕ) (ζ : ℕ → R)

/-- Half the length of a block of layer `l`. -/
def half (l : ℕ) : ℕ := 2 ^ (L - (l + 1))

theorem half_pos (l : ℕ) : 0 < half L l := Nat.two_pow_pos _

theorem two_mul_half {l : ℕ} (h : l < L) : 2 * half L l = 2 ^ (L - l) := by
  rw [half, ← Nat.pow_succ', show (L - (l + 1)).succ = L - l by omega]

/-- The first `l` layers; the factors of layer `l` are numbered from `2^l` on. -/
def forward : ℕ → ((ℕ → R) →ₗ[R] (ℕ → R))
  | 0 => LinearMap.id
  | l + 1 => (split (half L l) fun b => ζ (2 ^ l + b)) ∘ₗ forward l

/-- And back. -/
def backward : ℕ → ((ℕ → R) →ₗ[R] (ℕ → R))
  | 0 => LinearMap.id
  | l + 1 => backward l ∘ₗ merge (half L l) fun b => ζ (2 ^ l + b)

theorem two_mul_half_dvd {l : ℕ} (h : l < L) : 2 * half L l ∣ 2 ^ L := by
  rw [two_mul_half L h]
  exact Nat.pow_dvd_pow 2 (Nat.sub_le L l)

/-- The transform reads the first `2^L` values. -/
theorem forward_congr {a a' : ℕ → R} (h : ∀ k < 2 ^ L, a k = a' k) : ∀ l ≤ L, ∀ k < 2 ^ L, forward L ζ l a k = forward L ζ l a' k
  | 0, _ => h
  | l + 1, hl => by
    intro k hk
    rw [forward, LinearMap.comp_apply, LinearMap.comp_apply]
    exact split_congr (half_pos L l) (two_mul_half_dvd L hl) _ (forward_congr h l (by omega)) k hk

theorem backward_congr : ∀ l ≤ L, ∀ {a a' : ℕ → R}, (∀ k < 2 ^ L, a k = a' k) →
    ∀ k < 2 ^ L, backward L ζ l a k = backward L ζ l a' k
  | 0, _, _, _, h => h
  | l + 1, hl, _, _, h => by
    intro k hk
    rw [backward, LinearMap.comp_apply, LinearMap.comp_apply]
    exact backward_congr l (by omega) (merge_congr (half_pos L l) (two_mul_half_dvd L hl) _ h) k hk

variable {ζ} {ζ' : ℕ → R} (h : ∀ k, ζ' k * ζ k = 1)
include h

/-- **Back from the transform**, up to a power of two. -/
theorem backward_forward (a : ℕ → R) : ∀ l, backward L ζ' l (forward L ζ l a) = (2 ^ l : R) • a
  | 0 => by simp [backward, forward]
  | l + 1 => by
    rw [backward, forward, LinearMap.comp_apply, LinearMap.comp_apply, merge_split (half_pos L l) fun b => h _, map_smul,
      backward_forward a l, smul_smul, pow_succ']

theorem forward_backward : ∀ (l : ℕ) (a : ℕ → R), forward L ζ l (backward L ζ' l a) = (2 ^ l : R) • a
  | 0, a => by simp [backward, forward]
  | l + 1, a => by
    rw [backward, forward, LinearMap.comp_apply, LinearMap.comp_apply, forward_backward l, map_smul,
      split_merge (half_pos L l) fun b => h _, smul_smul, pow_succ]

theorem forward_of_backward {a b : ℕ → R} {c : R} (hb : ∀ k < 2 ^ L, b k = c * backward L ζ' L a k) :
    ∀ k < 2 ^ L, forward L ζ L b k = c * 2 ^ L * a k := by
  intro k hk
  calc forward L ζ L b k
      = forward L ζ L (c • backward L ζ' L a) k := forward_congr L ζ hb L (Nat.le_refl L) k hk
    _ = c * 2 ^ L * a k := by
        rw [map_smul, forward_backward L h, Pi.smul_apply, Pi.smul_apply, smul_eq_mul, smul_eq_mul, mul_assoc]

/-- **Sequences are known by their transforms** when two is invertible. -/
theorem eq_of_forward {a b : ℕ → R} {u : R} (hu : u * 2 ^ L = 1) (hf : ∀ k < 2 ^ L, forward L ζ L a k = forward L ζ L b k) :
    ∀ k < 2 ^ L, a k = b k := by
  intro k hk
  have hback := backward_congr L ζ' L (Nat.le_refl L) hf k hk
  rw [backward_forward L h, backward_forward L h, Pi.smul_apply, Pi.smul_apply, smul_eq_mul, smul_eq_mul] at hback
  linear_combination u * hback - (a k - b k) * hu

end

/-! ## Evaluation -/

section
variable (L : ℕ) (root : R) (ζ : ℕ → R)

/-- Block `b` of layer `l` is a remainder modulo `X^len - rootOf l b`. -/
def rootOf : ℕ → ℕ → R
  | 0, _ => root
  | l + 1, b => if b % 2 = 0 then ζ (2 ^ l + b / 2) else -ζ (2 ^ l + b / 2)

/-- The factors are square roots, layer by layer. -/
def Roots : Prop := ∀ l b, l < L → b < 2 ^ l → ζ (2 ^ l + b) ^ 2 = rootOf root ζ l b

variable {L root ζ}

theorem rootOf_pow (h : Roots L root ζ) : ∀ l ≤ L, ∀ b < 2 ^ l, rootOf root ζ l b ^ 2 ^ l = root
  | 0, _, _, _ => pow_one _
  | l + 1, hl, b, hb => by
    have hhalf : b / 2 < 2 ^ l := by rw [Nat.pow_succ] at hb; omega
    have hsq : rootOf root ζ (l + 1) b ^ 2 = rootOf root ζ l (b / 2) := by
      rw [← h l (b / 2) hl hhalf, rootOf]
      split_ifs <;> ring
    rw [pow_succ', pow_mul, hsq, rootOf_pow h l (by omega) _ hhalf]

/-- **Every block evaluates to the same** at the points its root allows. -/
theorem forward_block (h : Roots L root ζ) (a : ℕ → R) : ∀ l ≤ L, ∀ b < 2 ^ l, ∀ x : R, x ^ 2 ^ (L - l) = rootOf root ζ l b →
    ∑ j ∈ Finset.range (2 ^ (L - l)), forward L ζ l a (2 ^ (L - l) * b + j) * x ^ j =
      ∑ j ∈ Finset.range (2 ^ L), a j * x ^ j
  | 0, _, b, hb, x, _ => by
    obtain rfl : b = 0 := by simpa using hb
    simp [forward]
  | l + 1, hl, b, hb, x, hx => by
    have hhalf : b / 2 < 2 ^ l := by rw [Nat.pow_succ] at hb; omega
    have hlen := two_mul_half L (show l < L by omega)
    have hroot : x ^ 2 ^ (L - l) = rootOf root ζ l (b / 2) := by
      rw [← hlen, ← h l (b / 2) hl hhalf, Nat.mul_comm, pow_mul, half, hx, rootOf]
      split_ifs <;> ring
    rw [← forward_block h a l (by omega) (b / 2) hhalf x hroot, ← hlen, Nat.two_mul, Finset.sum_range_add,
      ← Finset.sum_add_distrib, ← Nat.two_mul]
    refine Finset.sum_congr rfl fun j hj => ?_
    have hj : j < half L l := Finset.mem_range.mp hj
    rw [← half, rootOf] at hx
    rw [← half, forward, LinearMap.comp_apply, pow_add, show 2 * half L l * (b / 2) + (half L l + j) =
      2 * half L l * (b / 2) + j + half L l by omega, hx]
    rcases Nat.mod_two_eq_zero_or_one b with he | ho
    · obtain ⟨c, rfl⟩ : ∃ c, b = 2 * c := ⟨b / 2, by omega⟩
      rw [if_pos he, show half L l * (2 * c) + j = 2 * half L l * c + j by ring, split_first hj,
        Nat.mul_div_cancel_left c (by omega)]
      ring
    · obtain ⟨c, rfl⟩ : ∃ c, b = 2 * c + 1 := ⟨b / 2, by omega⟩
      rw [if_neg (by omega), show half L l * (2 * c + 1) + j = 2 * half L l * c + j + half L l by ring, split_second hj,
        show (2 * c + 1) / 2 = c by omega]
      ring

/-- **The transform evaluates a polynomial** at the roots of the last layer. -/
theorem forward_eq_eval (h : Roots L root ζ) (a : ℕ → R) {b : ℕ} (hb : b < 2 ^ L) :
    forward L ζ L a b = ∑ j ∈ Finset.range (2 ^ L), a j * rootOf root ζ L b ^ j := by
  have hblock := forward_block h a L (Nat.le_refl L) b hb (rootOf root ζ L b) (by rw [Nat.sub_self, pow_zero, pow_one])
  rw [← hblock, Nat.sub_self]
  simp

end

/-! ## Layers in place -/

section
variable {α : Type} {m len : ℕ} {Good : ℕ → α → Prop} {a v : Vector α m}

/-- Of the pairs `(j, j + len)`, those of the blocks before `b` and the first `i` of block `b` are done. -/
def Upto (Good : ℕ → α → Prop) (len : ℕ) (a : Vector α m) (b i : ℕ) (v : Vector α m) : Prop :=
  ∀ k (hk : k < m), if k / (2 * len) < b ∨ k / (2 * len) = b ∧ k % (2 * len) % len < i then Good k v[k] else v[k] = a[k]

theorem Upto.start : Upto Good len a 0 0 a := by
  intro k hk
  rw [if_neg (by simp)]

theorem Upto.block {b : ℕ} (hlen : 0 < len) (h : Upto Good len a b len v) : Upto Good len a (b + 1) 0 v := by
  intro k hk
  have hlt := Nat.mod_lt (k % (2 * len)) hlen
  have hk := h k hk
  by_cases hb : k / (2 * len) < b + 1
  · rw [if_pos (.inl hb)]
    rwa [if_pos (by omega)] at hk
  · rw [if_neg (by omega)]
    rwa [if_neg (by omega)] at hk

theorem Upto.done {blocks : ℕ} (hm : blocks * (2 * len) = m) (h : Upto Good len a blocks 0 v) (k : ℕ) (hk : k < m) :
    Good k v[k] := by
  have hlt : k / (2 * len) < blocks := Nat.div_lt_of_lt_mul (by rw [Nat.mul_comm, hm]; exact hk)
  have hk := h k hk
  rwa [if_pos (.inl hlt)] at hk

variable {b i : ℕ} (hi : i < len) (h : Upto Good len a b i v) {p : ℕ} (hp : p = 2 * len * b + i)
include hi h hp

/-- The next pair is as it was. -/
theorem Upto.pair (hlt : p + len < m) : v[p] = a[p] ∧ v[p + len] = a[p + len] := by
  subst hp
  obtain ⟨hdiv, hmod⟩ := div_mod_first hi b
  obtain ⟨hdiv', hmod'⟩ := div_mod_second hi b
  have hfirst := h (2 * len * b + i) (by omega)
  have hsecond := h (2 * len * b + i + len) hlt
  rw [if_neg (by rw [hdiv, hmod, Nat.mod_eq_of_lt hi]; omega)] at hfirst
  rw [if_neg (by rw [hdiv', hmod', Nat.add_mod_right, Nat.mod_eq_of_lt hi]; omega)] at hsecond
  exact ⟨hfirst, hsecond⟩

theorem Upto.step (hlt : p + len < m) {x y : α} (hx : Good p x) (hy : Good (p + len) y) {v' : Vector α m}
    (hset : ∀ k (hk : k < m), v'[k] = if k = p then x else if k = p + len then y else v[k]) :
    Upto Good len a b (i + 1) v' := by
  subst hp
  obtain ⟨hdiv, hmod⟩ := div_mod_first hi b
  obtain ⟨hdiv', hmod'⟩ := div_mod_second hi b
  intro k hk
  rw [hset k hk]
  by_cases hk1 : k = 2 * len * b + i
  · subst hk1
    rw [if_pos (by rw [hdiv, hmod, Nat.mod_eq_of_lt hi]; omega), if_pos rfl]
    exact hx
  by_cases hk2 : k = 2 * len * b + i + len
  · subst hk2
    rw [if_pos (by rw [hdiv', hmod', Nat.add_mod_right, Nat.mod_eq_of_lt hi]; omega), if_neg (by omega), if_pos rfl]
    exact hy
  -- another pair: done now exactly when it was before
  have hother : k / (2 * len) = b → k % (2 * len) % len ≠ i := by
    rintro rfl hmod
    have hk := Nat.div_add_mod k (2 * len)
    have hr := Nat.mod_lt k (show 0 < 2 * len by omega)
    rcases Nat.lt_or_ge (k % (2 * len)) len with hlo | hhi
    · rw [Nat.mod_eq_of_lt hlo] at hmod
      omega
    · rw [Nat.mod_eq_sub_mod hhi, Nat.mod_eq_of_lt (by omega)] at hmod
      omega
  have hold := h k hk
  rw [if_neg hk1, if_neg hk2]
  split at hold
  · rw [if_pos (by omega)]
    exact hold
  · rw [if_neg (by omega)]
    exact hold

end

end CSem.Ntt
