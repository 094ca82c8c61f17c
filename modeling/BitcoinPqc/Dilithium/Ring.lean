import BitcoinPqc.Dilithium.Poly
import BitcoinPqc.Lib.NttRing

/-!
# The ring of polynomials

What the arrays stand for: `Z_q[X]/(X^256 + 1)`. `toRq` reads coefficients, `ofTransform` a transform, and
`pointRq t` gives the entry at `t`. Equations of arrays at every entry are equations of the ring
(`rq_ext`); three calls of the transform and a pointwise product multiply in it (`multiply_spec`).
-/
namespace BitcoinPqc.Dilithium
open CSem

instance factOneLtQ : Fact (1 < 8380417) := ⟨by decide⟩

noncomputable abbrev Rq := Ntt.Quot (-1 : Zq) (2 ^ 8)

noncomputable def toRq (a : Poly) : Rq := Ntt.ofCoeffs (-1) (2 ^ 8) (res a)

/-- The polynomial whose transform is `a`. -/
noncomputable def ofTransform (a : Poly) : Rq := Ntt.ofPoints (-1) 8 zetaInvOf 8347681 (res a)

noncomputable def pointRq (t : Fin (2 ^ 8)) : Rq →+* Zq := Ntt.point zetaOf_roots t

theorem pointRq_toRq (t : Fin (2 ^ 8)) (a : Poly) : pointRq t (toRq a) = hat a t := Ntt.point_ofCoeffs zetaOf_roots (res a) t

theorem pointRq_ofTransform (t : Fin (2 ^ 8)) (a : Poly) : pointRq t (ofTransform a) = res a t :=
  Ntt.point_ofPoints zetaOf_roots zetaInvOf_mul inv256_mul (res a) t

/-- **An element of the ring is known by its points.** -/
theorem rq_ext {x y : Rq} (h : ∀ t, pointRq t x = pointRq t y) : x = y :=
  Ntt.ext_of_points zetaOf_roots zetaInvOf_mul inv256_mul h

/-- **Two arrays stand for one polynomial** when they agree modulo `q`. -/
theorem toRq_eq_iff {a b : Poly} : toRq a = toRq b ↔ ∀ i (h : i < 256), (a[i] - b[i]) % q = 0 := by
  constructor
  · intro hab i hi
    refine mod_eq_of_cast ?_
    rw [← res_lt a hi, ← res_lt b hi]
    exact res_eq_of_hat (fun t ht => by rw [← pointRq_toRq ⟨t, ht⟩, hab, pointRq_toRq]) i hi
  · intro h
    have hres : res a = res b := res_ext fun i hi => by rw [res_lt a hi, res_lt b hi, cast_eq (h i hi)]
    rw [toRq, toRq, hres]

theorem Standard.eq_of_toRq {a b : Poly} (ha : Standard a) (hb : Standard b) (h : toRq a = toRq b) : a = b := by
  refine Vector.ext fun i hi => ?_
  have hmod := toRq_eq_iff.mp h i hi
  have ha' := ha i hi
  have hb' := hb i hi
  unfold q at *
  omega

/-! ## Multiplication -/

/-- How the callers multiply. -/
def multiply (a b : Poly) : Eval Poly := do
  let a ← polyNtt a
  let b ← polyNtt b
  let c ← polyPointwiseMontgomery a b
  polyInvnttTomont c

/-- **The transforms multiply** modulo `X^256 + 1` and `q`, within 32 bits. -/
theorem multiply_spec {a b : Poly} (ha : Within 67108847 a) (hb : Within 67108847 b) :
    Returns (fun c => Within 4211197 c ∧ toRq c = toRq a * toRq b) (multiply a b) := by
  refine (ntt_spec (by decide) ha).bind fun ahat hahat => ?_
  refine (ntt_spec (by decide) hb).bind fun bhat hbhat => ?_
  refine (polyPointwiseMontgomery_spec (by decide) hahat.1 hbhat.1).bind fun p hp => ?_
  refine (invnttTomont_spec (by decide) (by decide) hp.1).mono fun c hc => ⟨hc.1, rq_ext fun t => ?_⟩
  rw [map_mul, pointRq_toRq, pointRq_toRq, pointRq_toRq, ← hahat.2 t t.2, ← hbhat.2 t t.2]
  exact mont_cancel (hp.2 t t.2) (hc.2 t t.2)

theorem multiply_spec_ones :
    Within 67108847 (Vector.replicate 256 1) ∧ Returns (fun c => Within 4211197 c ∧ toRq c =
      toRq (Vector.replicate 256 1) * toRq (Vector.replicate 256 1)) (multiply (Vector.replicate 256 1) (Vector.replicate 256 1)) := by
  have hones : Within 67108847 (Vector.replicate 256 1) := fun i hi => by
    rw [Vector.getElem_replicate]
    decide
  exact ⟨hones, multiply_spec hones hones⟩

/-! ## Vectors -/

/-- A row of the matrix times a vector, at a point of the transform. -/
def rowDot (row v : Polyvecl) (t : Nat) : Zq := ∑ j : Fin l, res (row.get j) t * hat (v.get j) t

theorem dot_of_ntt {row v w : Polyvecl} {t : Nat} (h : ∀ j (hj : j < l), res w[j] t = hat v[j] t) :
    dot row w t = rowDot row v t :=
  Finset.sum_congr rfl fun j _ => by rw [get_fin, get_fin, Fin.getElem_fin, Fin.getElem_fin, h j j.2]

/-- The same in the ring; the matrix is sampled as a transform. -/
noncomputable def rowMul (row v : Polyvecl) : Rq := ∑ j : Fin l, ofTransform (row.get j) * toRq (v.get j)

theorem pointRq_rowMul (t : Fin (2 ^ 8)) (row v : Polyvecl) : pointRq t (rowMul row v) = rowDot row v t := by
  rw [rowMul, map_sum]
  exact Finset.sum_congr rfl fun j _ => by rw [map_mul, pointRq_ofTransform, pointRq_toRq]

end BitcoinPqc.Dilithium
