import BitcoinPqc.Dilithium.Reduce
import BitcoinPqc.Lib.Ntt
import Mathlib.Data.ZMod.Basic

/-!
# The transform of Dilithium

`ntt` and `invnttTomont` work in place and do not reduce after additions. They are the transforms of
Lib/Ntt over the residues modulo `q`, with the table `zetas` in Montgomery form, and no coefficient
leaves 32 bits on the ranges the callers keep (`ntt_spec`, `invnttTomont_spec`).


| here | there |
| --- | --- |
| `Poly` | `poly` (dilithium/ref/poly.h) |
| `zetas`, `ntt`, `invnttTomont` | dilithium/ref/ntt.c:6, :49, :77 |
-/
namespace BitcoinPqc.Dilithium
open CSem

/-- `N` coefficients. -/
abbrev Poly := Vector Int 256

set_option maxRecDepth 4000 in
def zetas : Vector Int 256 := #v[
  0, 25847, -2608894, -518909, 237124, -777960, -876248, 466468, 1826347, 2353451,
  -359251, -2091905, 3119733, -2884855, 3111497, 2680103, 2725464, 1024112, -1079900, 3585928,
  -549488, -1119584, 2619752, -2108549, -2118186, -3859737, -1399561, -3277672, 1757237, -19422,
  4010497, 280005, 2706023, 95776, 3077325, 3530437, -1661693, -3592148, -2537516, 3915439,
  -3861115, -3043716, 3574422, -2867647, 3539968, -300467, 2348700, -539299, -1699267, -1643818,
  3505694, -3821735, 3507263, -2140649, -1600420, 3699596, 811944, 531354, 954230, 3881043,
  3900724, -2556880, 2071892, -2797779, -3930395, -1528703, -3677745, -3041255, -1452451, 3475950,
  2176455, -1585221, -1257611, 1939314, -4083598, -1000202, -3190144, -3157330, -3632928, 126922,
  3412210, -983419, 2147896, 2715295, -2967645, -3693493, -411027, -2477047, -671102, -1228525,
  -22981, -1308169, -381987, 1349076, 1852771, -1430430, -3343383, 264944, 508951, 3097992,
  44288, -1100098, 904516, 3958618, -3724342, -8578, 1653064, -3249728, 2389356, -210977,
  759969, -1316856, 189548, -3553272, 3159746, -1851402, -2409325, -177440, 1315589, 1341330,
  1285669, -1584928, -812732, -1439742, -3019102, -3881060, -3628969, 3839961, 2091667, 3407706,
  2316500, 3817976, -3342478, 2244091, -2446433, -3562462, 266997, 2434439, -1235728, 3513181,
  -3520352, -3759364, -1197226, -3193378, 900702, 1859098, 909542, 819034, 495491, -1613174,
  -43260, -522500, -655327, -3122442, 2031748, 3207046, -3556995, -525098, -768622, -3595838,
  342297, 286988, -2437823, 4108315, 3437287, -3342277, 1735879, 203044, 2842341, 2691481,
  -2590150, 1265009, 4055324, 1247620, 2486353, 1595974, -3767016, 1250494, 2635921, -3548272,
  -2994039, 1869119, 1903435, -1050970, -1333058, 1237275, -3318210, -1430225, -451100, 1312455,
  3306115, -1962642, -1279661, 1917081, -2546312, -1374803, 1500165, 777191, 2235880, 3406031,
  -542412, -2831860, -1671176, -1846953, -2584293, -3724270, 594136, -3776993, -2013608, 2432395,
  2454455, -164721, 1957272, 3369112, 185531, -1207385, -3183426, 162844, 1616392, 3014001,
  810149, 1652634, -3694233, -1799107, -3038916, 3523897, 3866901, 269760, 2213111, -975884,
  1717735, 472078, -426683, 1723600, -1803090, 1910376, -1667432, -1104333, -260646, -3833893,
  -2939036, -2235985, -420899, -2286327, 183443, -976891, 1612842, -3545687, -554416, 3919660,
  -48306, -1362209, 3937738, 1400424, -846154, 1976782]

/-! ## The code -/

/-- The butterflies of a block, `j` from `start` on. -/
def nttBlock (zeta : Int) (len start : Nat) : Poly → Eval Poly :=
  forEval len fun i a => do
    let j := start + i
    let t ← montgomeryReduce (← i64 (zeta * (← at? a (j + len))))
    let a ← put? a (j + len) (← i32 ((← at? a j) - t))
    put? a j (← i32 ((← at? a j) + t))

/-- One round of the outer loop; a block ends where the next starts, `2*len` further. -/
def nttLayer (len : Nat) : Nat × Poly → Eval (Nat × Poly) :=
  forEval (256 / (2 * len)) fun b (k, a) => do
    let k := k + 1
    let zeta ← at? zetas k
    let a ← nttBlock zeta len (2 * len * b) a
    .ok (k, a)

/-- `for (len = 128; len > 0; len >>= 1)` -/
def ntt (a : Poly) : Eval Poly := do
  let (_, a) ← forEval 8 (fun l => nttLayer (128 >>> l)) (0, a)
  .ok a

def invnttBlock (zeta : Int) (len start : Nat) : Poly → Eval Poly :=
  forEval len fun i a => do
    let j := start + i
    let t ← at? a j
    let a ← put? a j (← i32 (t + (← at? a (j + len))))
    let a ← put? a (j + len) (← i32 (t - (← at? a (j + len))))
    put? a (j + len) (← montgomeryReduce (← i64 (zeta * (← at? a (j + len)))))

def invnttLayer (len : Nat) : Nat × Poly → Eval (Nat × Poly) :=
  forEval (256 / (2 * len)) fun b (k, a) => do
    let k := k - 1
    let zeta ← i32 (-(← at? zetas k))
    let a ← invnttBlock zeta len (2 * len * b) a
    .ok (k, a)

/-- `mont^2/256` -/
def invnttFactor : Int := 41978

/-- `for (len = 1; len < N; len <<= 1)`, then the factor. -/
def invnttTomont (a : Poly) : Eval Poly := do
  let (_, a) ← forEval 8 (fun l => invnttLayer (1 <<< l)) (256, a)
  forEval 256 (fun j a => do put? a j (← montgomeryReduce (← i64 (invnttFactor * (← at? a j))))) a

/-! ## Residues -/

abbrev Zq := ZMod 8380417

/-- `2^(-32)` -/
def montInv : Zq := 8265825

def mont32 : Zq := 4294967296

theorem mont32_mul_montInv : mont32 * montInv = 1 := by decide +kernel

/-- The coefficients modulo `q`. -/
def res (a : Poly) (k : Nat) : Zq := if h : k < 256 then (a[k] : Zq) else 0

theorem res_lt (a : Poly) {k : Nat} (hk : k < 256) : res a k = (a[k] : Zq) := dif_pos hk

theorem cast_eq {x y : Int} (h : (x - y) % q = 0) : (x : Zq) = y := by
  refine (ZMod.intCast_eq_intCast_iff_dvd_sub x y 8380417).mpr ?_
  have hneg : y - x = -(x - y) := by omega
  rw [hneg]
  exact (Int.dvd_neg).mpr (Int.dvd_of_emod_eq_zero h)

theorem mod_eq_of_cast {x y : Int} (h : (x : Zq) = y) : (x - y) % q = 0 := by
  have hdvd := (ZMod.intCast_eq_intCast_iff_dvd_sub y x 8380417).mp h.symm
  exact Int.emod_eq_zero_of_dvd hdvd

theorem cast_mont {r a : Int} (h : (r * 4294967296 - a) % q = 0) : (r : Zq) = a * montInv := by
  have hcast : ((r * 4294967296 : Int) : Zq) = a := cast_eq h
  have hr : (r : Zq) * mont32 = a := by
    rw [← hcast]
    push_cast
    rfl
  rw [← hr, mul_assoc, mont32_mul_montInv, mul_one]

/-! ## The table -/

/-- The factors of the blocks, layer after layer. -/
def zetaOf (k : Nat) : Zq := if h : 1 ≤ k ∧ k < 256 then (zetas[k] : Zq) * montInv else 1

/-- The way back goes through a layer of the table from its end. -/
def mirror (k : Nat) : Nat := 3 * 2 ^ Nat.log2 k - 1 - k

def zetaInvOf (k : Nat) : Zq := if 1 ≤ k ∧ k < 256 then -((zetas[mirror k]?.getD 0 : Int) : Zq) * montInv else 1

/-- The entries are the representatives closest to zero. -/
theorem zetas_bound {k : Nat} (h : k < 256) : (-4190208 : Int) ≤ zetas[k] ∧ zetas[k] ≤ (4190208 : Int) := by
  have hall : ∀ z ∈ zetas.toList, (-4190208 : Int) ≤ z ∧ z ≤ (4190208 : Int) := by decide +kernel
  exact hall _ (Vector.mem_toList_iff.mpr (Vector.getElem_mem h))

theorem mirror_layer {l b : Nat} (hb : b < 2 ^ l) : mirror (2 ^ l + b) = 2 ^ (l + 1) - 1 - b := by
  have hlog : Nat.log2 (2 ^ l + b) = l := by
    refine (Nat.log2_eq_iff (by have := Nat.two_pow_pos l; omega)).mpr ⟨Nat.le_add_right _ _, ?_⟩
    rw [Nat.pow_succ]
    omega
  rw [mirror, hlog, Nat.pow_succ]
  omega

theorem table_inverse : ∀ k < 256, 1 ≤ k → mirror k < 256 ∧
    (-(zetas[mirror k]?.getD 0) * zetas[k]?.getD 0 - 4294967296 * 4294967296) % q = 0 := by decide +kernel

theorem zetaInvOf_mul (k : Nat) : zetaInvOf k * zetaOf k = 1 := by
  unfold zetaInvOf zetaOf
  by_cases hk : 1 ≤ k ∧ k < 256
  · have htable := cast_eq (table_inverse k hk.2 hk.1).2
    rw [Vector.getElem?_eq_getElem hk.2, Option.getD_some] at htable
    push_cast at htable
    have hmont := mont32_mul_montInv
    unfold mont32 at hmont
    rw [if_pos hk, dif_pos hk]
    linear_combination (montInv * montInv) * htable + (4294967296 * montInv + 1) * hmont
  · rw [if_neg hk, dif_neg hk, mul_one]

theorem table_roots : ∀ l < 7, ∀ b < 2 ^ (l + 1), (zetas[2 ^ (l + 1) + b]?.getD 0 * zetas[2 ^ (l + 1) + b]?.getD 0 -
    (if b % 2 = 0 then zetas[2 ^ l + b / 2]?.getD 0 else -zetas[2 ^ l + b / 2]?.getD 0) * 4294967296) % q = 0 := by
  decide +kernel

theorem table_first : (zetas[1] * zetas[1] - (-1 : Int) * (4294967296 * 4294967296)) % q = 0 := by decide +kernel

theorem zetaOf_layer {l b : Nat} (hl : l < 8) (hb : b < 2 ^ l) : 1 ≤ 2 ^ l + b ∧ 2 ^ l + b < 256 := by
  have hpos := Nat.two_pow_pos l
  have hpow : 2 ^ (l + 1) ≤ 2 ^ 8 := Nat.pow_le_pow_right (by decide) hl
  rw [Nat.pow_succ] at hpow
  omega

/-- **The table holds square roots**, from one of -1 on. -/
theorem zetaOf_roots : Ntt.Roots 8 (-1) zetaOf := by
  intro l b hl hb
  have hk := zetaOf_layer hl hb
  have hmont := mont32_mul_montInv
  unfold mont32 at hmont
  rw [zetaOf, dif_pos hk]
  cases l with
  | zero =>
    obtain rfl : b = 0 := by simpa using hb
    have hfirst := cast_eq table_first
    push_cast at hfirst
    show ((zetas[1] : Int) * montInv : Zq) ^ 2 = -1
    linear_combination (montInv * montInv) * hfirst - (4294967296 * montInv + 1) * hmont
  | succ l =>
    have hhalf : b / 2 < 2 ^ l := by rw [Nat.pow_succ] at hb; omega
    have hk' := zetaOf_layer (show l < 8 by omega) hhalf
    have hroot := cast_eq (table_roots l (by omega) b hb)
    rw [Vector.getElem?_eq_getElem hk.2, Vector.getElem?_eq_getElem hk'.2, Option.getD_some, Option.getD_some] at hroot
    rw [Ntt.rootOf, zetaOf, dif_pos hk']
    split at hroot <;> rename_i hpar <;> push_cast at hroot
    · rw [if_pos hpar]
      linear_combination (montInv * montInv) * hroot + (zetas[2 ^ l + b / 2] : Zq) * montInv * hmont
    · rw [if_neg hpar]
      linear_combination (montInv * montInv) * hroot - (zetas[2 ^ l + b / 2] : Zq) * montInv * hmont

/-! ## What the loops compute -/

def Within (B : Int) (a : Poly) : Prop := ∀ k (h : k < 256), -B ≤ a[k] ∧ a[k] ≤ B

/-- A cell after a layer: its residue, and how far from zero it can be. -/
def Cell (B : Int) (f : Nat → Zq) (k : Nat) (y : Int) : Prop := (-B ≤ y ∧ y ≤ B) ∧ (y : Zq) = f k

/-- A factor of the table and what it stands for. -/
def Factor (zeta : Int) (z : Zq) : Prop := (-4190208 ≤ zeta ∧ zeta ≤ 4190208) ∧ z = (zeta : Zq) * montInv

/-- The product with a factor, reduced. -/
theorem mulFactor_spec {zeta x : Int} {z : Zq} (hz : Factor zeta z) (hx : InI32 x) :
    Returns (fun t => -q < t ∧ t < q ∧ (t : Zq) = z * x) (i64 (zeta * x) >>= montgomeryReduce) := by
  have hprod := mul_bounds hz.1 (show -2147483648 ≤ x ∧ x ≤ 2147483648 by unfold InI32 at hx; omega)
  refine (returns_i64 (by unfold InI64; omega)).bind ?_
  rintro _ rfl
  refine (montgomeryReduce_spec (by omega) (by omega)).mono ?_
  rintro t ⟨hlo, hhi, hmod⟩
  refine ⟨hlo, hhi, ?_⟩
  rw [cast_mont hmod, hz.2]
  push_cast
  ring

section
variable {len b : Nat} {z : Nat → Zq} {zeta B : Int} {a v : Poly}

theorem nttBlock_spec (hend : 2 * len * b + 2 * len ≤ 256) (hB : B + q ≤ 2147483647) (ha : Within B a)
    (hz : Factor zeta (z b)) (hv : Ntt.Upto (Cell (B + q) (Ntt.split len z (res a))) len a b 0 v) :
    Returns (Ntt.Upto (Cell (B + q) (Ntt.split len z (res a))) len a b len) (nttBlock zeta len (2 * len * b) v) := by
  refine Returns.forEval (fun i => Ntt.Upto (Cell (B + q) (Ntt.split len z (res a))) len a b i) hv fun i hi v hv => ?_
  have hlt : 2 * len * b + i + len < 256 := by omega
  have hlt' : 2 * len * b + i < 256 := by omega
  obtain ⟨hx, hy⟩ := hv.pair hi rfl hlt
  have hxB := ha _ hlt'
  have hyB := ha _ hlt
  unfold q at hB
  refine (returns_at? hlt).bind ?_
  rintro _ rfl
  rw [hy, ← bind_assoc]
  refine (mulFactor_spec hz (show InI32 a[2 * len * b + i + len] by unfold InI32; omega)).bind ?_
  rintro t ⟨htlo, hthi, ht⟩
  unfold q at htlo hthi
  refine (returns_at? hlt').bind ?_
  rintro _ rfl
  rw [hx]
  refine (returns_i32 (by unfold InI32; omega)).bind ?_
  rintro _ rfl
  refine (returns_put? hlt _).bind ?_
  rintro _ rfl
  refine (returns_at? hlt').bind ?_
  rintro _ rfl
  rw [Vector.getElem_set_ne _ _ (by omega), hx]
  refine (returns_i32 (by unfold InI32; omega)).bind ?_
  rintro _ rfl
  refine (returns_put? hlt' _).mono ?_
  rintro _ rfl
  refine hv.step hi rfl hlt (x := a[2 * len * b + i] + t) (y := a[2 * len * b + i] - t) ⟨?_, ?_⟩ ⟨?_, ?_⟩ fun k hk => ?_
  · unfold q; omega
  · rw [Ntt.split_first hi, res_lt a hlt', res_lt a hlt, ← ht]
    push_cast
    rfl
  · unfold q; omega
  · rw [Ntt.split_second hi, res_lt a hlt', res_lt a hlt, ← ht]
    push_cast
    rfl
  · rw [Vector.getElem_set, Vector.getElem_set]
    simp only [eq_comm]

end

/-- A layer whose blocks fill the array, cell by cell. -/
theorem within_of_cells {B : Int} {f : Nat → Zq} {a : Poly} (h : ∀ k (hk : k < 256), Cell B f k a[k]) :
    Within B a ∧ ∀ k < 256, res a k = f k :=
  ⟨fun k hk => (h k hk).1, fun k hk => (res_lt a hk).trans (h k hk).2⟩

theorem blocks_half {l : Nat} (hl : l < 8) :
    256 / (2 * Ntt.half 8 l) = 2 ^ l ∧ 2 ^ l * (2 * Ntt.half 8 l) = 256 := by
  rw [Ntt.two_mul_half 8 hl, ← Nat.pow_add, Nat.add_sub_cancel' (by omega : l ≤ 8)]
  refine ⟨?_, rfl⟩
  rw [show (256 : Nat) = 2 ^ 8 by rfl, Nat.pow_div (by omega) (by decide), Nat.sub_sub_self (by omega)]

theorem block_end {l b : Nat} (hl : l < 8) (hb : b < 2 ^ l) : 2 * Ntt.half 8 l * b + 2 * Ntt.half 8 l ≤ 256 := by
  rw [← (blocks_half hl).2, Nat.mul_comm (2 * Ntt.half 8 l) b, ← Nat.succ_mul]
  exact Nat.mul_le_mul_right _ hb

theorem zetaOf_factor {k : Nat} (h : 1 ≤ k ∧ k < 256) : Factor zetas[k] (zetaOf k) :=
  ⟨zetas_bound h.2, dif_pos h⟩

theorem nttLayer_spec {l : Nat} (hl : l < 8) {B : Int} (hB : B + q ≤ 2147483647) {a : Poly} (ha : Within B a) :
    Returns (fun st => st.1 = 2 ^ (l + 1) - 1 ∧ Within (B + q) st.2 ∧
      ∀ k < 256, res st.2 k = Ntt.split (Ntt.half 8 l) (fun b => zetaOf (2 ^ l + b)) (res a) k)
      (nttLayer (Ntt.half 8 l) (2 ^ l - 1, a)) := by
  obtain ⟨hcount, hfill⟩ := blocks_half hl
  have hpos := Nat.two_pow_pos l
  rw [nttLayer, hcount]
  refine (Returns.forEval (fun b st => st.1 = 2 ^ l - 1 + b ∧ Ntt.Upto (Cell (B + q)
    (Ntt.split (Ntt.half 8 l) (fun b => zetaOf (2 ^ l + b)) (res a))) (Ntt.half 8 l) a b 0 st.2)
    ⟨rfl, Ntt.Upto.start⟩ fun b hb st hst => ?_).mono fun st hst => ?_
  · obtain ⟨k, v⟩ := st
    obtain ⟨rfl, hv⟩ := hst
    have hk := zetaOf_layer hl hb
    have hidx : 2 ^ l - 1 + b + 1 = 2 ^ l + b := by omega
    refine (returns_at? (show 2 ^ l - 1 + b + 1 < 256 by omega)).bind ?_
    rintro _ rfl
    simp only [hidx]
    refine (nttBlock_spec (block_end hl hb) hB ha (zetaOf_factor hk) hv).bind fun v' hv' => ?_
    exact Returns.ok ⟨by omega, hv'.block (Ntt.half_pos 8 l)⟩
  · rw [Nat.pow_succ]
    exact ⟨by omega, within_of_cells (hst.2.done hfill)⟩

/-- The transform of the residues. -/
def hat (a : Poly) : Nat → Zq := Ntt.forward 8 zetaOf 8 (res a)

/-- **The forward transform** is defined and keeps to 32 bits when the input leaves room for eight
additions of `q`. -/
theorem ntt_spec {B : Int} (hB : B + 8 * q ≤ 2147483647) {a : Poly} (ha : Within B a) :
    Returns (fun b => Within (B + 8 * q) b ∧ ∀ k < 256, res b k = hat a k) (ntt a) := by
  refine (Returns.forEval (fun l st => st.1 = 2 ^ l - 1 ∧ Within (B + l * q) st.2 ∧
    ∀ k < 256, res st.2 k = Ntt.forward 8 zetaOf l (res a) k) ⟨rfl, ?_, fun _ _ => rfl⟩ fun l hl st hst => ?_).bind
    fun st hst => Returns.ok hst.2
  · simpa using ha
  · obtain ⟨k, v⟩ := st
    obtain ⟨rfl, hv, hres⟩ := hst
    have hhalf : 128 >>> l = Ntt.half 8 l := by
      rw [Ntt.half, Nat.shiftRight_eq_div_pow, show (128 : Nat) = 2 ^ 7 by rfl, Nat.pow_div (by omega) (by decide),
        show 7 - l = 8 - (l + 1) by omega]
    have hroom : B + l * q + q ≤ 2147483647 := by unfold q at *; omega
    rw [hhalf]
    refine (nttLayer_spec hl hroom hv).mono fun st' hst' => ⟨hst'.1, ?_, fun k hk => ?_⟩
    · have hadd : B + l * q + q = B + ((l + 1 : Nat) : Int) * q := by push_cast; ring
      rw [← hadd]
      exact hst'.2.1
    · rw [hst'.2.2 k hk, Ntt.forward, LinearMap.comp_apply]
      exact Ntt.split_congr (Ntt.half_pos 8 l) (Ntt.two_mul_half_dvd 8 hl) _ hres k hk

/-! ## The way back -/

theorem zetaInvOf_factor {l b : Nat} (hl : l < 8) (hb : b < 2 ^ l) {k : Nat} (hk : k = 2 ^ (l + 1) - 1 - b)
    (hlt : k < 256) : Factor (-zetas[k]) (zetaInvOf (2 ^ l + b)) := by
  have hbound := zetas_bound hlt
  refine ⟨⟨by omega, by omega⟩, ?_⟩
  rw [zetaInvOf, if_pos (zetaOf_layer hl hb), mirror_layer hb, ← hk, Vector.getElem?_eq_getElem hlt, Option.getD_some]
  push_cast
  rfl

theorem invnttBlock_spec {len b : Nat} {z : Nat → Zq} {zeta B : Int} {a v : Poly}
    (hend : 2 * len * b + 2 * len ≤ 256) (hB : 2 * B ≤ 2147483647) (hq : q ≤ 2 * B) (ha : Within B a)
    (hz : Factor zeta (z b)) (hv : Ntt.Upto (Cell (2 * B) (Ntt.merge len z (res a))) len a b 0 v) :
    Returns (Ntt.Upto (Cell (2 * B) (Ntt.merge len z (res a))) len a b len) (invnttBlock zeta len (2 * len * b) v) := by
  refine Returns.forEval (fun i => Ntt.Upto (Cell (2 * B) (Ntt.merge len z (res a))) len a b i) hv fun i hi v hv => ?_
  have hlt : 2 * len * b + i + len < 256 := by omega
  have hlt' : 2 * len * b + i < 256 := by omega
  obtain ⟨hx, hy⟩ := hv.pair hi rfl hlt
  have hxB := ha _ hlt'
  have hyB := ha _ hlt
  refine (returns_at? hlt').bind ?_
  rintro _ rfl
  refine (returns_at? hlt).bind ?_
  rintro _ rfl
  rw [hx, hy]
  refine (returns_i32 (by unfold InI32; omega)).bind ?_
  rintro _ rfl
  refine (returns_put? hlt' _).bind ?_
  rintro _ rfl
  refine (returns_at? hlt).bind ?_
  rintro _ rfl
  rw [Vector.getElem_set_ne _ _ (by omega), hy]
  refine (returns_i32 (by unfold InI32; omega)).bind ?_
  rintro _ rfl
  refine (returns_put? hlt _).bind ?_
  rintro _ rfl
  refine (returns_at? hlt).bind ?_
  rintro _ rfl
  rw [Vector.getElem_set_self, ← bind_assoc]
  refine (mulFactor_spec hz (show InI32 (a[2 * len * b + i] - a[2 * len * b + i + len]) by unfold InI32; omega)).bind ?_
  rintro t ⟨htlo, hthi, ht⟩
  refine (returns_put? hlt _).mono ?_
  rintro _ rfl
  refine hv.step hi rfl hlt (x := a[2 * len * b + i] + a[2 * len * b + i + len]) (y := t) ⟨?_, ?_⟩ ⟨?_, ?_⟩ fun k hk => ?_
  · omega
  · rw [Ntt.merge_first hi, res_lt a hlt', res_lt a hlt]
    push_cast
    rfl
  · omega
  · rw [Ntt.merge_second hi, res_lt a hlt', res_lt a hlt, ht]
    push_cast
    rfl
  · rw [Vector.getElem_set, Vector.getElem_set, Vector.getElem_set]
    grind

theorem invnttLayer_spec {l : Nat} (hl : l < 8) {B : Int} (hB : 2 * B ≤ 2147483647) (hq : q ≤ 2 * B) {a : Poly}
    (ha : Within B a) :
    Returns (fun st => st.1 = 2 ^ l ∧ Within (2 * B) st.2 ∧
      ∀ k < 256, res st.2 k = Ntt.merge (Ntt.half 8 l) (fun b => zetaInvOf (2 ^ l + b)) (res a) k)
      (invnttLayer (Ntt.half 8 l) (2 ^ (l + 1), a)) := by
  obtain ⟨hcount, hfill⟩ := blocks_half hl
  have hlen : 2 ^ (l + 1) ≤ 256 := Nat.pow_le_pow_right (by decide : 0 < 2) (show l + 1 ≤ 8 by omega)
  have hdouble : 2 ^ (l + 1) = 2 * 2 ^ l := Nat.pow_succ'
  rw [invnttLayer, hcount]
  refine (Returns.forEval (fun b st => st.1 = 2 ^ (l + 1) - b ∧ Ntt.Upto (Cell (2 * B)
    (Ntt.merge (Ntt.half 8 l) (fun b => zetaInvOf (2 ^ l + b)) (res a))) (Ntt.half 8 l) a b 0 st.2)
    ⟨rfl, Ntt.Upto.start⟩ fun b hb st hst => ?_).mono fun st hst => ?_
  · obtain ⟨k, v⟩ := st
    obtain ⟨rfl, hv⟩ := hst
    have hlt : 2 ^ (l + 1) - b - 1 < 256 := by omega
    have hbound := zetas_bound hlt
    refine (returns_at? hlt).bind ?_
    rintro _ rfl
    refine (returns_i32 (by unfold InI32; omega)).bind ?_
    rintro _ rfl
    refine (invnttBlock_spec (block_end hl hb) hB hq ha (zetaInvOf_factor hl hb (by omega) hlt) hv).bind fun v' hv' => ?_
    exact Returns.ok ⟨by omega, hv'.block (Ntt.half_pos 8 l)⟩
  · exact ⟨by omega, within_of_cells (hst.2.done hfill)⟩

theorem invnttFactor_mul : (invnttFactor : Zq) * montInv * 2 ^ 8 = mont32 := by decide +kernel

theorem hat_eq_of_backward {a b : Poly}
    (h : ∀ k < 256, res b k = (invnttFactor : Zq) * montInv * Ntt.backward 8 zetaInvOf 8 (res a) k) :
    ∀ k < 256, hat b k = mont32 * res a k := by
  rw [← invnttFactor_mul]
  exact Ntt.forward_of_backward 8 zetaInvOf_mul h

theorem inv256_mul : (8347681 : Zq) * 2 ^ 8 = 1 := by decide +kernel

/-- **A polynomial is known by its transform**, up to multiples of `q`. -/
theorem res_eq_of_hat {a b : Poly} (h : ∀ k < 256, hat a k = hat b k) : ∀ k < 256, res a k = res b k :=
  Ntt.eq_of_forward 8 zetaInvOf_mul inv256_mul h

/-- **The inverse transform** is defined when the input is at most `2^23 - 1` from zero. -/
theorem invnttTomont_spec {B : Int} (hB : 256 * B ≤ 2147483647) (hq : q ≤ 2 * B) {a : Poly} (ha : Within B a) :
    Returns (fun b => Within 4211197 b ∧ ∀ k < 256, hat b k = mont32 * res a k) (invnttTomont a) := by
  have hpos : 0 < B := by unfold q at hq; omega
  refine (Returns.forEval (fun i st => st.1 = 2 ^ (8 - i) ∧ Within (2 ^ i * B) st.2 ∧
    ∀ k < 256, Ntt.backward 8 zetaInvOf (8 - i) (res st.2) k = Ntt.backward 8 zetaInvOf 8 (res a) k)
    ⟨rfl, ?_, fun _ _ => by rw [Nat.sub_zero]⟩ fun i hi st hst => ?_).bind fun st hst => ?_
  · simpa using ha
  · obtain ⟨k, v⟩ := st
    obtain ⟨rfl, hv, hres⟩ := hst
    dsimp only at hv hres
    obtain ⟨l, hl, hil, hil'⟩ : ∃ l, l < 8 ∧ 8 - i = l + 1 ∧ 8 - (i + 1) = l := ⟨7 - i, by omega⟩
    have hhalf : 1 <<< i = Ntt.half 8 l := by rw [Ntt.half, Nat.one_shiftLeft, show i = 8 - (l + 1) by omega]
    have hlow : B ≤ 2 ^ i * B := le_mul_of_one_le_left hpos.le (one_le_pow₀ (by decide))
    have hhigh : 2 ^ i * B ≤ 128 * B :=
      mul_le_mul_of_nonneg_right (pow_le_pow_right₀ (by decide) (show i ≤ 7 by omega)) hpos.le
    rw [hhalf, hil, hil']
    rw [hil] at hres
    refine (invnttLayer_spec hl (by omega) (by omega) hv).mono fun st' hst' => ⟨hst'.1, ?_, fun k hk => ?_⟩
    · rw [pow_succ', mul_assoc]
      exact hst'.2.1
    · rw [← hres k hk, Ntt.backward, LinearMap.comp_apply]
      exact Ntt.backward_congr 8 zetaInvOf l (by omega) hst'.2.2 k hk
  · obtain ⟨k, v⟩ := st
    obtain ⟨-, hv, hres⟩ := hst
    dsimp only at hv hres
    refine (Returns.cells (R := fun j (y : Int) => (-4211197 ≤ y ∧ y ≤ 4211197) ∧
      (y : Zq) = (invnttFactor : Zq) * montInv * Ntt.backward 8 zetaInvOf 8 (res a) j) fun j hj v' hv' => ?_).mono
      fun b hb => ⟨fun j hj => (hb j hj).1, hat_eq_of_backward fun j hj => (res_lt b hj).trans (hb j hj).2⟩
    have hbound := hv j hj
    have hprod := mul_bounds (show -41978 ≤ invnttFactor ∧ invnttFactor ≤ 41978 by decide) hbound
    refine (returns_at? hj).bind ?_
    rintro _ rfl
    rw [hv']
    refine (returns_i64 (by unfold InI64; omega)).bind ?_
    rintro _ rfl
    refine (montgomeryReduce_small (by omega) (by omega)).bind fun t ht => ?_
    obtain ⟨hlo, hhi, hmod⟩ := ht
    refine (returns_put? hj t).mono ?_
    rintro _ rfl
    refine ⟨t, rfl, ⟨hlo, hhi⟩, ?_⟩
    have hlast := hres j hj
    rw [Nat.sub_self, Ntt.backward, LinearMap.id_apply, res_lt v hj] at hlast
    rw [cast_mont hmod, ← hlast]
    push_cast
    ring

end BitcoinPqc.Dilithium
