import BitcoinPqc.Dilithium.Ntt
import BitcoinPqc.Dilithium.Rounding

/-!
# Polynomials and vectors of polynomials

The operations of poly.c and polyvec.c, coefficient by coefficient and component by component. Each
is given with what it does to the residues modulo `q` and with how far from zero its results can be;
`polyvec_spec` lifts such a fact from polynomials to vectors.

| here | there |
| --- | --- |
| `polyReduce`, …, `polyChknorm` | dilithium/ref/poly.c:28-296 |
| `polyvecl…`, `polyveck…` | dilithium/ref/polyvec.c |
-/
namespace BitcoinPqc.Dilithium
open CSem

/-! ## poly.c -/

/-- `for (i = 0; i < N; ++i) c->coeffs[i] = …;` -/
def coeffs (f : (i : Fin 256) → Eval Int) : Eval Poly := Vector.ofFnM f

def polyReduce (a : Poly) : Eval Poly := coeffs fun i => reduce32 a[i]

def polyCaddq (a : Poly) : Eval Poly := coeffs fun i => caddq a[i]

def polyAdd (a b : Poly) : Eval Poly := coeffs fun i => i32 (a[i] + b[i])

def polySub (a b : Poly) : Eval Poly := coeffs fun i => i32 (a[i] - b[i])

/-- Shifting a negative value is undefined. -/
def polyShiftl (a : Poly) : Eval Poly :=
  coeffs fun i => if a[i] < 0 then .error .undefined else i32 (a[i] <<< d)

def polyNtt (a : Poly) : Eval Poly := ntt a

def polyInvnttTomont (a : Poly) : Eval Poly := invnttTomont a

def polyPointwiseMontgomery (a b : Poly) : Eval Poly := coeffs fun i => do montgomeryReduce (← i64 (a[i] * b[i]))

/-- A loop that fills two polynomials. -/
def coeffPairs (f : (i : Fin 256) → Eval (Int × Int)) : Eval (Poly × Poly) := do
  let p : Vector (Int × Int) 256 ← Vector.ofFnM f
  .ok (p.map (·.1), p.map (·.2))

def polyPower2round (a : Poly) : Eval (Poly × Poly) := coeffPairs fun i => power2round a[i]

def polyDecompose (a : Poly) : Eval (Poly × Poly) := coeffPairs fun i => decompose a[i]

/-- The hints and their number. -/
def polyMakeHint (a0 a1 : Poly) : Poly × Int :=
  let h := Vector.ofFn fun i : Fin 256 => makeHint a0[i] a1[i]
  (h, h.toList.sum)

def polyUseHint (a h : Poly) : Eval Poly := coeffs fun i => useHint a[i] h[i]

/-- `t = a >> 31; t = a - (t & 2*a);` -/
def absValue (a : Int) : Eval Int := do
  let twice ← i32 (2 * a)
  i32 (a - if a < 0 then twice else 0)

/-- `true` where the code returns 1; the loop ends at the first coefficient that is too large. -/
def chknormLoop (B : Int) : List Int → Eval Bool
  | [] => .ok false
  | x :: xs => do
    let t ← absValue x
    if t ≥ B then .ok true else chknormLoop B xs

def polyChknorm (a : Poly) (B : Int) : Eval Bool :=
  if B > (q - 1) / 8 then .ok true else chknormLoop B a.toList

/-! ## polyvec.c -/

abbrev Polyvecl := Vector Poly l
abbrev Polyveck := Vector Poly k

section
variable {m : Nat}

/-- `for (i = 0; i < m; ++i) f(&w->vec[i], …);` -/
def polyvec (f : Fin m → Eval Poly) : Eval (Vector Poly m) := Vector.ofFnM f

def polyvecPairs (f : Fin m → Eval (Poly × Poly)) : Eval (Vector Poly m × Vector Poly m) := do
  let p : Vector (Poly × Poly) m ← Vector.ofFnM f
  .ok (p.map (·.1), p.map (·.2))

def chknormVec (bound : Int) : List Poly → Eval Bool
  | [] => .ok false
  | p :: ps => do if (← polyChknorm p bound) then .ok true else chknormVec bound ps

end

def polyveclReduce (v : Polyvecl) : Eval Polyvecl := polyvec fun i => polyReduce v[i]
def polyveclAdd (u v : Polyvecl) : Eval Polyvecl := polyvec fun i => polyAdd u[i] v[i]
def polyveclNtt (v : Polyvecl) : Eval Polyvecl := polyvec fun i => polyNtt v[i]
def polyveclInvnttTomont (v : Polyvecl) : Eval Polyvecl := polyvec fun i => polyInvnttTomont v[i]
def polyveclPointwisePolyMontgomery (a : Poly) (v : Polyvecl) : Eval Polyvecl := polyvec fun i => polyPointwiseMontgomery a v[i]
def polyveclChknorm (v : Polyvecl) (bound : Int) : Eval Bool := chknormVec bound v.toList

def polyveclPointwiseAccMontgomery (u v : Polyvecl) : Eval Poly := do
  let w ← polyPointwiseMontgomery (← at? u 0) (← at? v 0)
  forEval (l - 1) (fun i w => do
    let t ← polyPointwiseMontgomery (← at? u (i + 1)) (← at? v (i + 1))
    polyAdd w t) w

def polyveckReduce (v : Polyveck) : Eval Polyveck := polyvec fun i => polyReduce v[i]
def polyveckCaddq (v : Polyveck) : Eval Polyveck := polyvec fun i => polyCaddq v[i]
def polyveckAdd (u v : Polyveck) : Eval Polyveck := polyvec fun i => polyAdd u[i] v[i]
def polyveckSub (u v : Polyveck) : Eval Polyveck := polyvec fun i => polySub u[i] v[i]
def polyveckShiftl (v : Polyveck) : Eval Polyveck := polyvec fun i => polyShiftl v[i]
def polyveckNtt (v : Polyveck) : Eval Polyveck := polyvec fun i => polyNtt v[i]
def polyveckInvnttTomont (v : Polyveck) : Eval Polyveck := polyvec fun i => polyInvnttTomont v[i]
def polyveckPointwisePolyMontgomery (a : Poly) (v : Polyveck) : Eval Polyveck := polyvec fun i => polyPointwiseMontgomery a v[i]
def polyveckChknorm (v : Polyveck) (bound : Int) : Eval Bool := chknormVec bound v.toList
def polyveckPower2round (v : Polyveck) : Eval (Polyveck × Polyveck) := polyvecPairs fun i => polyPower2round v[i]
def polyveckDecompose (v : Polyveck) : Eval (Polyveck × Polyveck) := polyvecPairs fun i => polyDecompose v[i]
def polyveckUseHint (u h : Polyveck) : Eval Polyveck := polyvec fun i => polyUseHint u[i] h[i]

def polyveckMakeHint (v0 v1 : Polyveck) : Polyveck × Int :=
  let p := Vector.ofFn fun i : Fin k => polyMakeHint v0[i] v1[i]
  (p.map (·.1), (p.toList.map (·.2)).sum)

abbrev Matrix := Vector Polyvecl k

def polyvecMatrixPointwiseMontgomery (mat : Matrix) (v : Polyvecl) : Eval Polyveck :=
  polyvec fun i => polyveclPointwiseAccMontgomery mat[i] v

/-! ## Coefficients -/

def Between (lo hi : Int) (a : Poly) : Prop := ∀ i (h : i < 256), lo ≤ a[i] ∧ a[i] < hi

/-- Standard representatives. -/
abbrev Standard (a : Poly) : Prop := Between 0 q a

theorem Between.within {lo hi B : Int} (hlo : -B ≤ lo) (hhi : hi ≤ B + 1) {a : Poly} (h : Between lo hi a) : Within B a := by
  intro i hi
  have := h i hi
  omega

theorem Within.mono {A B : Int} (hAB : A ≤ B) {a : Poly} (h : Within A a) : Within B a := by
  intro i hi
  have := h i hi
  omega

/-! ## Residues and transforms -/

theorem res_ext {a b : Poly} (h : ∀ i < 256, res a i = res b i) : res a = res b := by
  funext i
  by_cases hi : i < 256
  · exact h i hi
  · rw [res, res, dif_neg hi, dif_neg hi]

theorem res_add {a b w : Poly} (h : ∀ i (hi : i < 256), w[i] = a[i] + b[i]) : res w = res a + res b := by
  funext i
  rw [Pi.add_apply]
  by_cases hi : i < 256
  · rw [res_lt w hi, res_lt a hi, res_lt b hi, h i hi]
    push_cast
    rfl
  · rw [res, res, res, dif_neg hi, dif_neg hi, dif_neg hi, add_zero]

theorem res_sub {a b w : Poly} (h : ∀ i (hi : i < 256), w[i] = a[i] - b[i]) : res w = res a - res b := by
  funext i
  rw [Pi.sub_apply]
  by_cases hi : i < 256
  · rw [res_lt w hi, res_lt a hi, res_lt b hi, h i hi]
    push_cast
    rfl
  · rw [res, res, res, dif_neg hi, dif_neg hi, dif_neg hi, sub_zero]

theorem res_zero : res (Vector.replicate 256 0) = 0 := by
  funext i
  rw [Pi.zero_apply]
  by_cases hi : i < 256
  · rw [res_lt _ hi, Vector.getElem_replicate, Int.cast_zero]
  · rw [res, dif_neg hi]

theorem hat_zero : hat (Vector.replicate 256 0) = 0 := by rw [hat, res_zero, map_zero]

theorem hat_congr {a b : Poly} (h : res a = res b) : hat a = hat b := by rw [hat, hat, h]

theorem hat_add {a b c : Poly} (h : res c = res a + res b) : hat c = hat a + hat b := by rw [hat, hat, hat, h, map_add]

theorem hat_sub {a b c : Poly} (h : res c = res a - res b) : hat c = hat a - hat b := by rw [hat, hat, hat, h, map_sub]

/-- Scaling and adding. -/
theorem hat_scale {a b d : Poly} {c : Zq} (h : ∀ i < 256, res a i = c * res b i + res d i) (t : Nat) :
    hat a t = c * hat b t + hat d t := by
  have hres : res a = c • res b + res d := by
    funext i
    rw [Pi.add_apply, Pi.smul_apply, smul_eq_mul]
    by_cases hi : i < 256
    · exact h i hi
    · rw [res, res, res, dif_neg hi, dif_neg hi, dif_neg hi, mul_zero, add_zero]
  rw [hat, hat, hat, hres, map_add, map_smul, Pi.add_apply, Pi.smul_apply, smul_eq_mul]

/-- Two short polynomials with one transform. -/
theorem eq_of_hat {A B : Int} (hAB : A + B < q) {a b : Poly} (ha : Within A a) (hb : Within B b)
    (h : ∀ t < 256, hat a t = hat b t) : a = b := by
  refine Vector.ext fun j hj => ?_
  have hres := res_eq_of_hat h j hj
  rw [res_lt _ hj, res_lt _ hj] at hres
  have hmod := mod_eq_of_cast hres
  have haj := ha j hj
  have hbj := hb j hj
  unfold q at hmod hAB
  omega

/-- One fact a coefficient. -/
theorem coeffs_spec {f : Fin 256 → Eval Int} {R : Nat → Int → Prop} (h : ∀ i (hi : i < 256), Returns (R i) (f ⟨i, hi⟩)) :
    Returns (fun w : Poly => ∀ i (hi : i < 256), R i w[i]) (coeffs f) := Returns.ofFnM fun i => h i.1 i.2

theorem polyReduce_spec {a : Poly} (ha : Within 2143289343 a) :
    Returns (fun b => Within 6283009 b ∧ ∀ i < 256, res b i = res a i) (polyReduce a) := by
  refine (coeffs_spec (R := fun i y => (-6283009 ≤ y ∧ y ≤ 6283009) ∧ (y : Zq) = res a i) fun i hi => ?_).mono
    fun b hb => ⟨fun i hi => (hb i hi).1, fun i hi => (res_lt b hi).trans (hb i hi).2⟩
  have := ha i hi
  refine (reduce32_spec (a := a[i]) (by unfold InI32; omega) (by omega)).mono ?_
  rintro r ⟨hlo, hhi, hmod⟩
  exact ⟨⟨by omega, by omega⟩, by rw [res_lt a hi, cast_eq hmod]⟩

theorem polyCaddq_spec {a : Poly} (ha : Within (q - 1) a) :
    Returns (fun b => Standard b ∧ ∀ i < 256, res b i = res a i) (polyCaddq a) := by
  refine (coeffs_spec (R := fun i y => (0 ≤ y ∧ y < q) ∧ (y : Zq) = res a i) fun i hi => ?_).mono
    fun b hb => ⟨fun i hi => (hb i hi).1, fun i hi => (res_lt b hi).trans (hb i hi).2⟩
  have := ha i hi
  refine (caddq_spec (a := a[i]) (by omega) (by omega)).mono ?_
  rintro r ⟨hlo, hhi, hmod⟩
  exact ⟨⟨hlo, hhi⟩, by rw [res_lt a hi, cast_eq hmod]⟩

theorem polyAdd_spec {A B : Int} (hAB : A + B ≤ 2147483647) {a b : Poly} (ha : Within A a) (hb : Within B b) :
    Returns (fun w => Within (A + B) w ∧ ∀ i (h : i < 256), w[i] = a[i] + b[i]) (polyAdd a b) := by
  refine (coeffs_spec (R := fun i y => ∀ h : i < 256, y = a[i] + b[i]) fun i hi => ?_).mono fun w hw => ⟨fun i hi => ?_, ?_⟩
  · have := ha i hi
    have := hb i hi
    refine (returns_i32 (x := a[i] + b[i]) (by unfold InI32; omega)).mono ?_
    rintro _ rfl _
    rfl
  · have := ha i hi
    have := hb i hi
    rw [hw i hi hi]
    omega
  · exact fun i hi => hw i hi hi

theorem polySub_spec {A B : Int} (hAB : A + B ≤ 2147483647) {a b : Poly} (ha : Within A a) (hb : Within B b) :
    Returns (fun w => Within (A + B) w ∧ ∀ i (h : i < 256), w[i] = a[i] - b[i]) (polySub a b) := by
  refine (coeffs_spec (R := fun i y => ∀ h : i < 256, y = a[i] - b[i]) fun i hi => ?_).mono fun w hw => ⟨fun i hi => ?_, ?_⟩
  · have := ha i hi
    have := hb i hi
    refine (returns_i32 (x := a[i] - b[i]) (by unfold InI32; omega)).mono ?_
    rintro _ rfl _
    rfl
  · have := ha i hi
    have := hb i hi
    rw [hw i hi hi]
    omega
  · exact fun i hi => hw i hi hi

theorem polyShiftl_spec {a : Poly} (ha : Between 0 1024 a) :
    Returns (fun w => Within 8380416 w ∧ ∀ i (h : i < 256), w[i] = a[i] * 8192) (polyShiftl a) := by
  refine (coeffs_spec (R := fun i y => ∀ h : i < 256, y = a[i] * 8192) fun i hi => ?_).mono fun w hw => ⟨fun i hi => ?_, ?_⟩
  · have := ha i hi
    dsimp only [Fin.getElem_fin]
    rw [if_neg (by omega), Int.shiftLeft_eq, show (2 : Int) ^ d = 8192 by rfl]
    refine (returns_i32 (x := a[i] * 8192) (by unfold InI32; omega)).mono ?_
    rintro _ rfl _
    rfl
  · have := ha i hi
    rw [hw i hi hi]
    omega
  · exact fun i hi => hw i hi hi

theorem polyPointwiseMontgomery_spec {A B : Int} (hAB : A * B < 17996808470921216) {a b : Poly} (ha : Within A a)
    (hb : Within B b) :
    Returns (fun c => Within (q - 1) c ∧ ∀ i < 256, res c i = res a i * res b i * montInv) (polyPointwiseMontgomery a b) := by
  refine (coeffs_spec (R := fun i y => (-(q - 1) ≤ y ∧ y ≤ q - 1) ∧ (y : Zq) = res a i * res b i * montInv) fun i hi => ?_).mono
    fun c hc => ⟨fun i hi => (hc i hi).1, fun i hi => (res_lt c hi).trans (hc i hi).2⟩
  have hprod := mul_bounds (ha i hi) (hb i hi)
  refine (returns_i64 (x := a[i] * b[i]) (by unfold InI64; omega)).bind ?_
  rintro _ rfl
  refine (montgomeryReduce_spec (by omega) (by omega)).mono ?_
  rintro r ⟨hlo, hhi, hmod⟩
  refine ⟨⟨by omega, by omega⟩, ?_⟩
  rw [cast_mont hmod, res_lt a hi, res_lt b hi]
  push_cast
  rfl

theorem coeffPairs_spec {f : Fin 256 → Eval (Int × Int)} {R : Nat → Int → Int → Prop}
    (h : ∀ i (hi : i < 256), Returns (fun x => R i x.1 x.2) (f ⟨i, hi⟩)) :
    Returns (fun p : Poly × Poly => ∀ i (hi : i < 256), R i p.1[i] p.2[i]) (coeffPairs f) := by
  refine (Returns.ofFnM (R := fun i x => R i x.1 x.2) fun i => h i.1 i.2).bind fun v hv => Returns.ok fun i hi => ?_
  dsimp only
  rw [Vector.getElem_map, Vector.getElem_map]
  exact hv i hi

theorem polyPower2round_spec {a : Poly} (ha : Standard a) :
    Returns (fun p : Poly × Poly => ∀ i (h : i < 256), Rounded a[i] p.1[i] p.2[i]) (polyPower2round a) := by
  refine (coeffPairs_spec (R := fun i x y => ∀ h : i < 256, Rounded a[i] x y) fun i hi => ?_).mono
    fun p hp i hi => hp i hi hi
  exact (power2round_spec (ha i hi).1 (ha i hi).2).mono fun _ hround _ => hround

theorem polyDecompose_spec {a : Poly} (ha : Standard a) :
    Returns (fun p : Poly × Poly => ∀ i (h : i < 256), Decomposed a[i] p.1[i] p.2[i]) (polyDecompose a) := by
  refine (coeffPairs_spec (R := fun i x y => ∀ h : i < 256, Decomposed a[i] x y) fun i hi => ?_).mono
    fun p hp i hi => hp i hi hi
  exact (decompose_spec (ha i hi).1 (ha i hi).2).mono fun _ hdec _ => hdec

/-! ## Norms -/

theorem absValue_spec {a : Int} (h : -1073741823 ≤ a ∧ a ≤ 1073741823) :
    Returns (fun t => a ≤ t ∧ -a ≤ t ∧ (t = a ∨ t = -a)) (absValue a) := by
  refine (returns_i32 (x := 2 * a) (by unfold InI32; omega)).bind ?_
  rintro _ rfl
  refine (returns_i32 (by unfold InI32; split <;> omega)).mono ?_
  rintro _ rfl
  split <;> omega

theorem chknormLoop_spec (B : Int) : ∀ {xs : List Int}, (∀ x ∈ xs, -1073741823 ≤ x ∧ x ≤ 1073741823) →
    Returns (fun bad => bad = false ↔ ∀ x ∈ xs, -B < x ∧ x < B) (chknormLoop B xs)
  | [], _ => Returns.ok (by simp)
  | x :: xs, h => by
    have ih := chknormLoop_spec B fun y hy => h y (List.mem_cons_of_mem x hy)
    refine (absValue_spec (h x (List.mem_cons_self))).bind ?_
    rintro t ⟨hpos, hneg, ht⟩
    by_cases hge : t ≥ B
    · rw [if_pos hge]
      refine Returns.ok ?_
      simp only [Bool.true_eq_false, List.mem_cons, forall_eq_or_imp, false_iff, not_and]
      omega
    · rw [if_neg hge]
      refine ih.mono fun bad hbad => ?_
      rw [hbad, List.forall_mem_cons]
      exact ⟨fun hall => ⟨by omega, hall⟩, fun hall => hall.2⟩

/-- **The norm check** accepts the polynomials whose coefficients are all below the bound. -/
theorem polyChknorm_spec {a : Poly} (ha : Within 1073741823 a) {B : Int} (hB : B ≤ 1047552) :
    Returns (fun bad => bad = false ↔ Within (B - 1) a) (polyChknorm a B) := by
  have hall : ∀ x ∈ a.toList, -1073741823 ≤ x ∧ x ≤ 1073741823 := by
    intro x hx
    obtain ⟨i, hi, rfl⟩ := Vector.mem_iff_getElem.mp (Vector.mem_toList_iff.mp hx)
    exact ha i hi
  have hnot : ¬ B > (q - 1) / 8 := by unfold q; omega
  rw [polyChknorm, if_neg hnot]
  refine (chknormLoop_spec B hall).mono fun bad hbad => hbad.trans ⟨fun h i hi => ?_, fun h x hx => ?_⟩
  · have := h a[i] (Vector.mem_toList_iff.mpr (Vector.getElem_mem hi))
    omega
  · obtain ⟨i, hi, rfl⟩ := Vector.mem_iff_getElem.mp (Vector.mem_toList_iff.mp hx)
    have := h i hi
    omega

theorem chknormVec_spec {B : Int} (hB : B ≤ 1047552) : ∀ {ps : List Poly}, (∀ p ∈ ps, Within 1073741823 p) →
    Returns (fun bad => bad = false ↔ ∀ p ∈ ps, Within (B - 1) p) (chknormVec B ps)
  | [], _ => Returns.ok (by simp)
  | p :: ps, h => by
    have ih := chknormVec_spec hB fun p' hp' => h p' (List.mem_cons_of_mem p hp')
    refine (polyChknorm_spec (h p List.mem_cons_self) hB).bind fun bad hbad => ?_
    cases bad with
    | true =>
      refine Returns.ok ?_
      simp only [Bool.true_eq_false, false_iff] at hbad ⊢
      exact fun hall => hbad (hall p List.mem_cons_self)
    | false =>
      refine ih.mono fun bad' hbad' => ?_
      rw [hbad', List.forall_mem_cons]
      exact ⟨fun hall => ⟨hbad.mp rfl, hall⟩, fun hall => hall.2⟩

/-! ## Vectors -/

section
variable {m : Nat}

/-- One fact a component. -/
theorem polyvec_spec {f : Fin m → Eval Poly} {R : Nat → Poly → Prop} (h : ∀ i (hi : i < m), Returns (R i) (f ⟨i, hi⟩)) :
    Returns (fun v : Vector Poly m => ∀ i (hi : i < m), R i v[i]) (polyvec f) := Returns.ofFnM fun i => h i.1 i.2

theorem polyvecPairs_spec {f : Fin m → Eval (Poly × Poly)} {R : Nat → Poly → Poly → Prop}
    (h : ∀ i (hi : i < m), Returns (fun p => R i p.1 p.2) (f ⟨i, hi⟩)) :
    Returns (fun p : Vector Poly m × Vector Poly m => ∀ i (hi : i < m), R i p.1[i] p.2[i]) (polyvecPairs f) := by
  refine (Returns.ofFnM (R := fun i p => R i p.1 p.2) fun i => h i.1 i.2).bind fun v hv => Returns.ok fun i hi => ?_
  dsimp only
  rw [Vector.getElem_map, Vector.getElem_map]
  exact hv i hi

theorem chknorm_spec {B : Int} (hB : B ≤ 1047552) {v : Vector Poly m} (hv : ∀ i (h : i < m), Within 1073741823 v[i]) :
    Returns (fun bad => bad = false ↔ ∀ i (h : i < m), Within (B - 1) v[i]) (chknormVec B v.toList) := by
  refine (chknormVec_spec hB fun p hp => ?_).mono fun bad hbad => hbad.trans ⟨fun h i hi => ?_, fun h p hp => ?_⟩
  · obtain ⟨i, hi, rfl⟩ := Vector.mem_iff_getElem.mp (Vector.mem_toList_iff.mp hp)
    exact hv i hi
  · exact h v[i] (Vector.mem_toList_iff.mpr (Vector.getElem_mem hi))
  · obtain ⟨i, hi, rfl⟩ := Vector.mem_iff_getElem.mp (Vector.mem_toList_iff.mp hp)
    exact h i hi

end

section
variable {m : Nat}

def AllWithin (B : Int) (v : Vector Poly m) : Prop := ∀ i (h : i < m), Within B v[i]

theorem AllWithin.mono {A B : Int} (hAB : A ≤ B) {v : Vector Poly m} (h : AllWithin A v) : AllWithin B v :=
  fun i hi => (h i hi).mono hAB

variable {A B : Int} {u v : Vector Poly m}

theorem vec_eq_of_hat (hAB : A + B < q) (hu : AllWithin A u) (hv : AllWithin B v)
    (h : ∀ i (hi : i < m), ∀ t < 256, hat u[i] t = hat v[i] t) : u = v :=
  Vector.ext fun i hi => eq_of_hat hAB (hu i hi) (hv i hi) (h i hi)

theorem vecReduce_spec (hv : AllWithin 2143289343 v) :
    Returns (fun w : Vector Poly m => AllWithin 6283009 w ∧ ∀ i (h : i < m), res w[i] = res v[i])
      (polyvec fun i => polyReduce v[i]) := by
  refine (polyvec_spec (R := fun i a => Within 6283009 a ∧ ∀ h : i < m, res a = res v[i]) fun i hi => ?_).mono
    fun w hw => ⟨fun i hi => (hw i hi).1, fun i hi => (hw i hi).2 hi⟩
  exact (polyReduce_spec (hv i hi)).mono fun a ha => ⟨ha.1, fun _ => res_ext ha.2⟩

theorem vecCaddq_spec (hv : AllWithin (q - 1) v) :
    Returns (fun w : Vector Poly m => ∀ i (h : i < m), Standard w[i] ∧ res w[i] = res v[i]) (polyvec fun i => polyCaddq v[i]) := by
  refine (polyvec_spec (R := fun i a => ∀ h : i < m, Standard a ∧ res a = res v[i]) fun i hi => ?_).mono
    fun w hw i hi => hw i hi hi
  exact (polyCaddq_spec (hv i hi)).mono fun a ha _ => ⟨ha.1, res_ext ha.2⟩

theorem vecAdd_spec (hAB : A + B ≤ 2147483647) (hu : AllWithin A u) (hv : AllWithin B v) :
    Returns (fun w : Vector Poly m => AllWithin (A + B) w ∧ ∀ i (h : i < m), res w[i] = res u[i] + res v[i])
      (polyvec fun i => polyAdd u[i] v[i]) := by
  refine (polyvec_spec (R := fun i a => Within (A + B) a ∧ ∀ h : i < m, res a = res u[i] + res v[i]) fun i hi => ?_).mono
    fun w hw => ⟨fun i hi => (hw i hi).1, fun i hi => (hw i hi).2 hi⟩
  exact (polyAdd_spec hAB (hu i hi) (hv i hi)).mono fun a ha => ⟨ha.1, fun _ => res_add ha.2⟩

theorem vecSub_spec (hAB : A + B ≤ 2147483647) (hu : AllWithin A u) (hv : AllWithin B v) :
    Returns (fun w : Vector Poly m => AllWithin (A + B) w ∧ ∀ i (h : i < m), res w[i] = res u[i] - res v[i])
      (polyvec fun i => polySub u[i] v[i]) := by
  refine (polyvec_spec (R := fun i a => Within (A + B) a ∧ ∀ h : i < m, res a = res u[i] - res v[i]) fun i hi => ?_).mono
    fun w hw => ⟨fun i hi => (hw i hi).1, fun i hi => (hw i hi).2 hi⟩
  exact (polySub_spec hAB (hu i hi) (hv i hi)).mono fun a ha => ⟨ha.1, fun _ => res_sub ha.2⟩

theorem vecShiftl_spec (hv : ∀ i (h : i < m), Between 0 1024 v[i]) :
    Returns (fun w : Vector Poly m => AllWithin 8380416 w ∧ ∀ i (h : i < m) t, hat w[i] t = (8192 : Int) * hat v[i] t)
      (polyvec fun i => polyShiftl v[i]) := by
  refine (polyvec_spec (R := fun i a => Within 8380416 a ∧ ∀ (h : i < m) t, hat a t = (8192 : Int) * hat v[i] t)
    fun i hi => ?_).mono fun w hw => ⟨fun i hi => (hw i hi).1, fun i hi => (hw i hi).2 hi⟩
  refine (polyShiftl_spec (hv i hi)).mono fun a ha => ⟨ha.1, fun _ t => ?_⟩
  have hscale := hat_scale (a := a) (b := v[i]) (d := Vector.replicate 256 0) (c := ((8192 : Int) : Zq)) (fun j hj => ?_) t
  · rw [hscale, hat_zero, Pi.zero_apply, add_zero]
  · rw [res_zero, Pi.zero_apply, add_zero, res_lt a hj, res_lt _ hj, ha.2 j hj, Int.cast_mul, mul_comm]

theorem vecPower2round_spec (hv : ∀ i (h : i < m), Standard v[i]) :
    Returns (fun p : Vector Poly m × Vector Poly m => ∀ i (h : i < m), Between 0 1024 p.1[i] ∧ Between (-4095) 4097 p.2[i] ∧
      (∀ j (hj : j < 256), v[i][j] = p.1[i][j] * (8192 : Int) + p.2[i][j]) ∧
      ∀ t, hat v[i] t = (8192 : Int) * hat p.1[i] t + hat p.2[i] t) (polyvecPairs fun i => polyPower2round v[i]) := by
  refine (polyvecPairs_spec (R := fun i a1 a0 => ∀ h : i < m, Between 0 1024 a1 ∧ Between (-4095) 4097 a0 ∧
    (∀ j (hj : j < 256), v[i][j] = a1[j] * (8192 : Int) + a0[j]) ∧ ∀ t, hat v[i] t = (8192 : Int) * hat a1 t + hat a0 t)
    fun i hi => ?_).mono fun p hp i hi => hp i hi hi
  refine (polyPower2round_spec (hv i hi)).mono fun p hp _ =>
    ⟨fun j hj => (hp j hj).high, fun j hj => (hp j hj).low, fun j hj => (hp j hj).sum, ?_⟩
  refine hat_scale fun j hj => ?_
  rw [res_lt _ hj, res_lt _ hj, res_lt _ hj, (hp j hj).sum, Int.cast_add, Int.cast_mul, mul_comm]

theorem vecUseHint_eq {h w1 : Vector Poly m}
    (heach : ∀ i (hi : i < m) j (hj : j < 256), useHint v[i][j] h[i][j] = .ok w1[i][j]) :
    (polyvec fun i : Fin m => polyUseHint v[i] h[i]) = .ok w1 := by
  obtain ⟨w, hw, hcells⟩ := polyvec_spec (f := fun i : Fin m => polyUseHint v[i] h[i])
    (R := fun i a => ∀ (hi : i < m) j (hj : j < 256), a[j] = w1[i][j]) fun i hi =>
      (coeffs_spec (R := fun j y => ∀ hj : j < 256, y = w1[i][j]) fun j hj => ⟨_, heach i hi j hj, fun _ => rfl⟩).mono
        fun a ha _ j hj => ha j hj hj
  rw [hw]
  exact congrArg Except.ok (Vector.ext fun i hi => Vector.ext fun j hj => hcells i hi hi j hj)

theorem vecNtt_spec (hB : B + 8 * q ≤ 2147483647) (hv : AllWithin B v) :
    Returns (fun w : Vector Poly m => AllWithin (B + 8 * q) w ∧ ∀ i (h : i < m), ∀ t < 256, res w[i] t = hat v[i] t)
      (polyvec fun i => polyNtt v[i]) := by
  refine (polyvec_spec (R := fun i a => Within (B + 8 * q) a ∧ ∀ h : i < m, ∀ t < 256, res a t = hat v[i] t) fun i hi => ?_).mono
    fun w hw => ⟨fun i hi => (hw i hi).1, fun i hi => (hw i hi).2 hi⟩
  exact (ntt_spec hB (hv i hi)).mono fun a ha => ⟨ha.1, fun _ => ha.2⟩

theorem vecInvntt_spec (hB : 256 * B ≤ 2147483647) (hq : q ≤ 2 * B) (hv : AllWithin B v) :
    Returns (fun w : Vector Poly m => AllWithin 4211197 w ∧ ∀ i (h : i < m), ∀ t < 256, hat w[i] t = mont32 * res v[i] t)
      (polyvec fun i => polyInvnttTomont v[i]) := by
  refine (polyvec_spec (R := fun i a => Within 4211197 a ∧ ∀ h : i < m, ∀ t < 256, hat a t = mont32 * res v[i] t)
    fun i hi => ?_).mono fun w hw => ⟨fun i hi => (hw i hi).1, fun i hi => (hw i hi).2 hi⟩
  exact (invnttTomont_spec hB hq (hv i hi)).mono fun a ha => ⟨ha.1, fun _ => ha.2⟩

theorem vecPointwise_spec (hAB : A * B < 17996808470921216) {a : Poly} (ha : Within A a) (hv : AllWithin B v) :
    Returns (fun w : Vector Poly m => AllWithin (q - 1) w ∧
      ∀ i (h : i < m), ∀ t < 256, res w[i] t = res a t * res v[i] t * montInv) (polyvec fun i => polyPointwiseMontgomery a v[i]) := by
  refine (polyvec_spec (R := fun i c => Within (q - 1) c ∧ ∀ h : i < m, ∀ t < 256, res c t = res a t * res v[i] t * montInv)
    fun i hi => ?_).mono fun w hw => ⟨fun i hi => (hw i hi).1, fun i hi => (hw i hi).2 hi⟩
  exact (polyPointwiseMontgomery_spec hAB ha (hv i hi)).mono fun c hc => ⟨hc.1, fun _ => hc.2⟩

end

/-- The two factors of a product through the transform cancel. -/
theorem mont_cancel {x y z : Zq} (hy : y = x * montInv) (hz : z = mont32 * y) : z = x := by
  have hmont := mont32_mul_montInv
  rw [hz, hy]
  linear_combination x * hmont

/-- A product through the transform: `pointwise`, then `invntt_tomont`. -/
theorem returns_product {m : Nat} {A B : Int} (hAB : A * B < 17996808470921216) {a : Poly} (ha : Within A a) {v : Vector Poly m}
    (hv : AllWithin B v) {α : Type} {Q : α → Prop} {f : Vector Poly m → Eval α}
    (hf : ∀ w, AllWithin 4211197 w → (∀ i (h : i < m), ∀ t < 256, hat w[i] t = res a t * res v[i] t) → Returns Q (f w)) :
    Returns Q ((polyvec fun i => polyPointwiseMontgomery a v[i]) >>= fun p => (polyvec fun i => polyInvnttTomont p[i]) >>= f) := by
  refine (vecPointwise_spec hAB ha hv).bind fun p hp => ?_
  refine (vecInvntt_spec (by decide) (by decide) hp.1).bind fun w hw => ?_
  exact hf w hw.1 fun i hi t ht => mont_cancel (hp.2 i hi t ht) (hw.2 i hi t ht)

/-- The product of two vectors at a point of the transform. -/
def dot (u v : Polyvecl) (i : Nat) : Zq := ∑ j : Fin l, res u[j] i * res v[j] i

theorem accMontgomery_spec {A B : Int} (hAB : A * B < 17996808470921216) {u v : Polyvecl}
    (hu : ∀ j (h : j < l), Within A u[j]) (hv : ∀ j (h : j < l), Within B v[j]) :
    Returns (fun w => Within (4 * (q - 1)) w ∧ ∀ i < 256, res w i = dot u v i * montInv) (polyveclPointwiseAccMontgomery u v) := by
  -- the products so far
  let term (i j : Nat) : Zq := if h : j < l then res u[j] i * res v[j] i else 0
  have hterm : ∀ i, dot u v i = ∑ j ∈ Finset.range l, term i j := by
    intro i
    rw [dot, ← Fin.sum_univ_eq_sum_range (term i) l]
    exact Finset.sum_congr rfl fun j _ => (show term i j = res u[j] i * res v[j] i from dif_pos j.2).symm
  have hproduct : ∀ j (h : j < l), Returns (fun c => Within (q - 1) c ∧ ∀ i < 256, res c i = term i j * montInv)
      (polyPointwiseMontgomery u[j] v[j]) := by
    intro j hj
    refine (polyPointwiseMontgomery_spec hAB (hu j hj) (hv j hj)).mono fun c hc => ⟨hc.1, fun i hi => ?_⟩
    rw [hc.2 i hi, show term i j = res u[j] i * res v[j] i from dif_pos hj]
  refine (returns_at? (show 0 < l by decide)).bind ?_
  rintro _ rfl
  refine (returns_at? (show 0 < l by decide)).bind ?_
  rintro _ rfl
  refine (hproduct 0 (by decide)).bind fun w hw => ?_
  refine (Returns.forEval (fun t w => Within (((t : Nat) + 1) * (q - 1)) w ∧
    ∀ i < 256, res w i = (∑ j ∈ Finset.range (t + 1), term i j) * montInv) ⟨?_, ?_⟩ fun t ht w hw => ?_).mono
    fun w hw => ⟨hw.1.mono (by decide), fun i hi => by rw [hw.2 i hi, hterm]; rfl⟩
  · simpa using hw.1
  · intro i hi
    rw [hw.2 i hi, Finset.sum_range_one]
  · have ht' : t + 1 < l := by unfold l at *; omega
    refine (returns_at? ht').bind ?_
    rintro _ rfl
    refine (returns_at? ht').bind ?_
    rintro _ rfl
    refine (hproduct (t + 1) ht').bind fun c hc => ?_
    have hroom : ((t : Nat) + 1) * (q - 1) + (q - 1) ≤ 2147483647 := by
      unfold l at ht'
      unfold q
      omega
    refine (polyAdd_spec hroom hw.1 hc.1).mono fun w' hw' => ⟨?_, fun i hi => ?_⟩
    · refine Within.mono ?_ hw'.1
      push_cast
      exact le_of_eq (by ring)
    · rw [res_lt w' hi, hw'.2 i hi, Finset.sum_range_succ, add_mul, ← hw.2 i hi, ← hc.2 i hi, res_lt w hi, res_lt c hi]
      push_cast
      rfl

theorem matrix_spec {A B : Int} (hAB : A * B < 17996808470921216) {mat : Matrix} {v : Polyvecl}
    (hmat : ∀ i (hi : i < k) j (hj : j < l), Within A mat[i][j]) (hv : AllWithin B v) :
    Returns (fun w => AllWithin (4 * (q - 1)) w ∧ ∀ i (h : i < k), ∀ t < 256, res w[i] t = dot mat[i] v t * montInv)
      (polyvecMatrixPointwiseMontgomery mat v) := by
  refine (polyvec_spec (R := fun i a => Within (4 * (q - 1)) a ∧ ∀ h : i < k, ∀ t < 256, res a t = dot mat[i] v t * montInv)
    fun i hi => ?_).mono fun w hw => ⟨fun i hi => (hw i hi).1, fun i hi => (hw i hi).2 hi⟩
  exact (accMontgomery_spec hAB (hmat i hi) hv).mono fun a ha => ⟨ha.1, fun _ => ha.2⟩

end BitcoinPqc.Dilithium
