import BitcoinPqc.Dilithium.Reduce

/-!
# High and low bits

How a standard representative is cut in two, and the hint that lets the verifier find the high bits
of `w` when it only has `w` up to a small error (`useHint_makeHint`).

| here | there |
| --- | --- |
| `power2round`, `decompose`, `makeHint`, `useHint` | dilithium/ref/rounding.c:17, :39, :67, :84 |

A function that returns a value and writes another through a pointer returns both here, the
returned one first.
-/
namespace BitcoinPqc.Dilithium
open CSem

def power2round (a : Int) : Eval (Int × Int) := do
  let a1 := (← i32 ((← i32 (a + 4096)) - 1)) >>> d -- 1 << (D-1)
  if a1 < 0 then .error .undefined else
    let a0 ← i32 (a - (← i32 (a1 <<< d)))
    .ok (a1, a0)

/-- `GAMMA2 == (Q-1)/88`. The masks are those of a negative value: all ones or zero. -/
def decompose (a : Int) : Eval (Int × Int) := do
  let a1 := (← i32 (a + 127)) >>> (7 : Nat)
  let a1 := (← i32 ((← i32 (a1 * 11275)) + 8388608)) >>> (24 : Nat) -- 1 << 23
  let a1 := if (← i32 (43 - a1)) < 0 then 0 else a1
  let a0 ← i32 (a - (← i32 ((← i32 (a1 * 2)) * gamma2)))
  let a0 ← i32 (a0 - if (← i32 ((q - 1) / 2 - a0)) < 0 then q else 0)
  .ok (a1, a0)

def makeHint (a0 a1 : Int) : Int := if a0 > gamma2 ∨ a0 < -gamma2 ∨ a0 = -gamma2 ∧ a1 ≠ 0 then 1 else 0

def useHint (a hint : Int) : Eval Int := do
  let (a1, a0) ← decompose a
  if hint = 0 then .ok a1
  else if a0 > 0 then .ok (if a1 = 43 then 0 else a1 + 1)
  else .ok (if a1 = 0 then 43 else a1 - 1)

/-! ## Cutting -/

/-- `a` is `a1` steps of `2^D` and a rest. -/
structure Rounded (a a1 a0 : Int) : Prop where
  high : 0 ≤ a1 ∧ a1 < 1024
  low : -4095 ≤ a0 ∧ a0 < 4097
  sum : a = a1 * 8192 + a0

theorem power2round_spec {a : Int} (h : 0 ≤ a) (hlt : a < q) : Returns (fun (a1, a0) => Rounded a a1 a0) (power2round a) := by
  unfold q at hlt
  refine (returns_i32 (x := a + 4096) (by unfold InI32; omega)).bind ?_
  rintro _ rfl
  refine (returns_i32 (x := a + 4096 - 1) (by unfold InI32; omega)).bind ?_
  rintro _ rfl
  rw [Int.shiftRight_eq_div_pow, show ((2 ^ d : Nat) : Int) = 8192 by rfl]
  dsimp only
  rw [if_neg (by omega), Int.shiftLeft_eq, show (2 : Int) ^ d = 8192 by rfl]
  refine (returns_i32 (x := (a + 4096 - 1) / 8192 * 8192) (by unfold InI32; omega)).bind ?_
  rintro _ rfl
  refine (returns_i32 (by unfold InI32; omega)).bind ?_
  rintro _ rfl
  exact Returns.ok ⟨by omega, by omega, by omega⟩

/-- `a` is `a1` steps of `2*gamma2` and a rest; the last step ends at `q`. -/
structure Decomposed (a a1 a0 : Int) : Prop where
  high : 0 ≤ a1 ∧ a1 ≤ 43
  low : a = a1 * 190464 + a0 ∧ -95232 < a0 ∧ a0 ≤ 95232 ∨ a1 = 0 ∧ a = q + a0 ∧ -95232 ≤ a0 ∧ a0 < 0

theorem decompose_spec {a : Int} (h : 0 ≤ a) (hlt : a < q) : Returns (fun (a1, a0) => Decomposed a a1 a0) (decompose a) := by
  unfold q at hlt
  refine (returns_i32 (x := a + 127) (by unfold InI32; omega)).bind ?_
  rintro _ rfl
  rw [Int.shiftRight_eq_div_pow, show ((2 ^ 7 : Nat) : Int) = 128 by rfl]
  refine (returns_i32 (x := (a + 127) / 128 * 11275) (by unfold InI32; omega)).bind ?_
  rintro _ rfl
  refine (returns_i32 (x := (a + 127) / 128 * 11275 + 8388608) (by unfold InI32; omega)).bind ?_
  rintro _ rfl
  rw [Int.shiftRight_eq_div_pow, show ((2 ^ 24 : Nat) : Int) = 16777216 by rfl]
  -- the multiplication and shift round to the nearest step
  have hnear : ∀ s : Int, s = ((a + 127) / 128 * 11275 + 8388608) / 16777216 →
      0 ≤ s ∧ s ≤ 44 ∧ -95232 < a - s * 190464 ∧ a - s * 190464 ≤ 95232 := by
    intro s hs
    omega
  generalize hs : ((a + 127) / 128 * 11275 + 8388608) / 16777216 = s
  obtain ⟨h0, h44, hlo, hhi⟩ := hnear s hs.symm
  clear hnear hs
  refine (returns_i32 (x := 43 - s) (by unfold InI32; omega)).bind ?_
  rintro _ rfl
  have hgamma : gamma2 = 95232 := by decide
  have hhalf : (q - 1) / 2 = 4190208 := by decide
  rw [hgamma, hhalf]
  generalize ha1 : (if 43 - s < 0 then 0 else s) = a1
  have hrange : 0 ≤ a1 ∧ a1 ≤ 43 := by split at ha1 <;> omega
  refine (returns_i32 (x := a1 * 2) (by unfold InI32; omega)).bind ?_
  rintro _ rfl
  refine (returns_i32 (x := a1 * 2 * 95232) (by unfold InI32; omega)).bind ?_
  rintro _ rfl
  refine (returns_i32 (x := a - a1 * 2 * 95232) (by unfold InI32; omega)).bind ?_
  rintro _ rfl
  refine (returns_i32 (x := 4190208 - (a - a1 * 2 * 95232)) (by unfold InI32; omega)).bind ?_
  rintro _ rfl
  unfold q
  by_cases hlast : s = 44
  · subst hlast
    rw [if_pos (by omega)] at ha1
    subst ha1
    rw [if_pos (by omega)]
    refine (returns_i32 (x := a - 0 * 2 * 95232 - 8380417) (by unfold InI32; omega)).bind ?_
    rintro _ rfl
    exact Returns.ok ⟨hrange, .inr ⟨rfl, by unfold q; omega, by omega, by omega⟩⟩
  · rw [if_neg (by omega)] at ha1
    subst ha1
    rw [if_neg (by omega)]
    refine (returns_i32 (x := a - s * 2 * 95232 - 0) (by unfold InI32; omega)).bind ?_
    rintro _ rfl
    exact Returns.ok ⟨hrange, .inl ⟨by omega, by omega, by omega⟩⟩

/-! ## Hints -/

/-- **The hint is enough**: whoever has `w` up to an error of less than `2*gamma2`, and the hint made
from that error, finds the high bits of `w`. -/
theorem useHint_makeHint {v w1 e : Int} (hv : 0 ≤ v) (hlt : v < q) (hw : 0 ≤ w1 ∧ w1 ≤ 43)
    (he : -190464 < e ∧ e < 190464) (hmod : (v - (w1 * 190464 + e)) % q = 0) : useHint v (makeHint e w1) = .ok w1 := by
  obtain ⟨⟨a1, a0⟩, hdec, ⟨hhigh, hlow⟩⟩ := decompose_spec hv hlt
  have hgamma : gamma2 = 95232 := by decide
  unfold q at hmod hlt hlow
  -- both are high and low bits of `v`, up to one turn around `q`
  have hturn : a1 * 190464 + a0 - (w1 * 190464 + e) = 0 ∨ a1 * 190464 + a0 - (w1 * 190464 + e) = 8380417 ∨
      a1 * 190464 + a0 - (w1 * 190464 + e) = -8380417 := by omega
  have hrun : useHint v (makeHint e w1) = if makeHint e w1 = 0 then .ok a1
      else if a0 > 0 then .ok (if a1 = 43 then 0 else a1 + 1) else .ok (if a1 = 0 then 43 else a1 - 1) := by
    rw [useHint, hdec]
    rfl
  rw [hrun, makeHint, hgamma]
  by_cases hover : e > 95232 ∨ e < -95232 ∨ e = -95232 ∧ w1 ≠ 0
  · rw [if_pos hover, if_neg (by decide)]
    by_cases hpos : a0 > 0
    · rw [if_pos hpos]
      refine congrArg Except.ok ?_
      split <;> omega
    · rw [if_neg hpos]
      refine congrArg Except.ok ?_
      split <;> omega
  · rw [if_neg hover, if_pos rfl]
    refine congrArg Except.ok ?_
    omega

end BitcoinPqc.Dilithium
