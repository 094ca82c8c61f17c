import BitcoinPqc.Lib.Ntt
import Mathlib.Algebra.Polynomial.Div
import Mathlib.RingTheory.AdjoinRoot

/-!
# The ring a transform is about

`R[X]/(X^(2^L) - root)` and its evaluations at the roots of the last layer. When two is invertible an
element is known by its values (`ext_of_points`), and the values can be chosen (`point_ofPoints`); so an
equation between sequences of values is an equation of the ring.
-/
namespace CSem.Ntt

open Polynomial

variable {R : Type} [CommRing R] {L : ℕ} {root : R} {ζ ζ' : ℕ → R}

/-! ## Coefficients -/

/-- The polynomial with the first `m` coefficients of `a`. -/
noncomputable def toPoly (m : ℕ) (a : ℕ → R) : R[X] := ∑ j ∈ Finset.range m, C (a j) * X ^ j

theorem eval_toPoly (m : ℕ) (a : ℕ → R) (x : R) : (toPoly m a).eval x = ∑ j ∈ Finset.range m, a j * x ^ j := by
  simp [toPoly, eval_finsetSum]

theorem toPoly_congr {m : ℕ} {a b : ℕ → R} (h : ∀ k < m, a k = b k) : toPoly m a = toPoly m b :=
  Finset.sum_congr rfl fun k hk => by rw [h k (Finset.mem_range.mp hk)]

theorem toPoly_modByMonic [Nontrivial R] {m : ℕ} (hm : m ≠ 0) (root : R) (p : R[X]) :
    toPoly m (p %ₘ (X ^ m - C root)).coeff = p %ₘ (X ^ m - C root) := by
  have hmonic := monic_X_pow_sub_C root hm
  have hdeg : (p %ₘ (X ^ m - C root)).natDegree < m := by
    refine lt_of_lt_of_eq (natDegree_modByMonic_lt _ hmonic ?_) (natDegree_X_pow_sub_C)
    intro hone
    have hzero := natDegree_X_pow_sub_C (n := m) (r := root)
    rw [hone, natDegree_one] at hzero
    exact hm hzero.symm
  exact (as_sum_range_C_mul_X_pow' _ hdeg).symm

/-- `R[X]/(X^m - root)` -/
abbrev Quot (root : R) (m : ℕ) := AdjoinRoot (X ^ m - C root : R[X])

/-- The element with the first `m` coefficients of `a`. -/
noncomputable def ofCoeffs (root : R) (m : ℕ) (a : ℕ → R) : Quot root m := AdjoinRoot.mk _ (toPoly m a)

/-- **Every element has coefficients.** -/
theorem exists_coeffs [Nontrivial R] {m : ℕ} (hm : m ≠ 0) (x : Quot root m) : ∃ a, x = ofCoeffs root m a := by
  obtain ⟨p, rfl⟩ := AdjoinRoot.mk_surjective x
  refine ⟨(p %ₘ (X ^ m - C root)).coeff, ?_⟩
  rw [ofCoeffs, toPoly_modByMonic hm, AdjoinRoot.mk_eq_mk]
  exact ⟨p /ₘ (X ^ m - C root), by rw [sub_eq_iff_eq_add, add_comm]; exact (modByMonic_add_div p _).symm⟩

/-! ## Evaluation -/

/-- The value at root `b` of the last layer. -/
noncomputable def point (h : Roots L root ζ) (b : Fin (2 ^ L)) : Quot root (2 ^ L) →+* R :=
  AdjoinRoot.lift (RingHom.id R) (rootOf root ζ L b) (by
    rw [eval₂_id, eval_sub, eval_pow, eval_X, eval_C, rootOf_pow h L (Nat.le_refl L) b b.2, sub_self])

variable (h : Roots L root ζ)

/-- **The transform lists the values.** -/
theorem point_ofCoeffs (a : ℕ → R) (b : Fin (2 ^ L)) : point h b (ofCoeffs root (2 ^ L) a) = forward L ζ L a b := by
  rw [point, ofCoeffs, AdjoinRoot.lift_mk, eval₂_id, eval_toPoly, forward_eq_eval h a b.2]

section
variable (hinv : ∀ k, ζ' k * ζ k = 1) {u : R} (hu : u * 2 ^ L = 1)
include hinv hu

/-- **An element is known by its values.** -/
theorem ext_of_points [Nontrivial R] {x y : Quot root (2 ^ L)} (hxy : ∀ b, point h b x = point h b y) : x = y := by
  obtain ⟨a, rfl⟩ := exists_coeffs (Nat.two_pow_pos L).ne' x
  obtain ⟨a', rfl⟩ := exists_coeffs (Nat.two_pow_pos L).ne' y
  have hvalues : ∀ k < 2 ^ L, forward L ζ L a k = forward L ζ L a' k := fun k hk => by
    have hk' := hxy ⟨k, hk⟩
    rwa [point_ofCoeffs, point_ofCoeffs] at hk'
  have hcoeffs := eq_of_forward L hinv hu hvalues
  rw [ofCoeffs, ofCoeffs, toPoly_congr hcoeffs]

omit hinv hu in
/-- The element with the values `f`; `u` is the inverse of `2^L`. -/
noncomputable def ofPoints (root : R) (L : ℕ) (ζ' : ℕ → R) (u : R) (f : ℕ → R) : Quot root (2 ^ L) :=
  ofCoeffs root (2 ^ L) fun k => u * backward L ζ' L f k

theorem point_ofPoints (f : ℕ → R) (b : Fin (2 ^ L)) : point h b (ofPoints root L ζ' u f) = f b := by
  rw [ofPoints, point_ofCoeffs, forward_of_backward L hinv (a := f) (c := u) (fun _ _ => rfl) b b.2, hu, one_mul]

end

end CSem.Ntt
