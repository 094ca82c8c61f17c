import BitcoinPqc.Lib.CInt
import BitcoinPqc.Params

/-!
# Reduction modulo q

Coefficients are representatives modulo `q` of no fixed range: additions do not reduce, and each
function says for which inputs it is defined and how far its result can be from zero. The ranges
here are exact (`montgomeryReduce_top`, `reduce32_returns_iff`, `reduce32_lowest`).

| here | there |
| --- | --- |
| `q`, … | dilithium/ref/params.h:11-28, reduce.h:8 |
| `montgomeryReduce`, `reduce32`, `caddq` | dilithium/ref/reduce.c:15, :33, :50 |
-/
namespace BitcoinPqc.Dilithium
open CSem

def n : Nat := 256
def q : Int := 8380417
def d : Nat := 13
def eta : Int := 2
def tau : Nat := 39
def beta : Int := 78
def gamma1 : Int := 131072
/-- `(Q-1)/88` -/
def gamma2 : Int := (q - 1) / 88

def qinv : Int := 58728449

def montgomeryReduce (a : Int) : Eval Int := do
  let t := toI32 (← i64 (toI32 a * qinv))
  let r ← i64 (a - (← i64 (t * q)))
  .ok (toI32 (r >>> (32 : Nat)))

def reduce32 (a : Int) : Eval Int := do
  let t := (← i32 (a + 4194304)) >>> (23 : Nat) -- 1 << 22
  i32 (a - (← i32 (t * q)))

/-- `(a >> 31) & Q` is `Q` for a negative `a` and 0 otherwise. -/
def caddq (a : Int) : Eval Int := i32 (a + if a < 0 then q else 0)

/-! ## Montgomery reduction -/

/-- What is subtracted: a multiple of `q` that makes the difference divisible. -/
def montgomeryFactor (a : Int) : Int := toI32 (toI32 a * qinv)

theorem montgomeryFactor_dvd (a : Int) : (a - montgomeryFactor a * q) % 4294967296 = 0 := by
  unfold montgomeryFactor toI32 qinv q
  omega

theorem montgomeryReduce_eq {a : Int} (h : -17996808470921216 ≤ a ∧ a ≤ 17996808470921216) :
    ∃ r, montgomeryReduce a = .ok r ∧ r * 4294967296 = a - montgomeryFactor a * q := by
  have hdvd := montgomeryFactor_dvd a
  have ht := toI32_inI32 (toI32 a * qinv)
  have ha := toI32_inI32 a
  rw [montgomeryReduce, i64_ok (x := toI32 a * qinv) (by unfold InI32 at ha; unfold InI64 qinv; omega)]
  rw [← montgomeryFactor] at ht
  unfold InI32 at ht
  have hprod : InI64 (montgomeryFactor a * q) := by unfold InI64 q; omega
  have hdiff : InI64 (a - montgomeryFactor a * q) := by unfold InI64 q; omega
  have hquot : InI32 ((a - montgomeryFactor a * q) >>> (32 : Nat)) := by
    rw [Int.shiftRight_eq_div_pow]
    unfold InI32 q
    omega
  refine ⟨(a - montgomeryFactor a * q) >>> (32 : Nat), ?_, ?_⟩
  · show (do let r ← i64 (a - (← i64 (montgomeryFactor a * q))); Except.ok (toI32 (r >>> (32 : Nat)))) = _
    rw [i64_ok hprod]
    show (do let r ← i64 (a - montgomeryFactor a * q); Except.ok (toI32 (r >>> (32 : Nat)))) = _
    rw [i64_ok hdiff]
    exact congrArg Except.ok (toI32_id hquot)
  · rw [Int.shiftRight_eq_div_pow]
    omega

/-- **Montgomery reduction** divides by `2^32` modulo `q`, on the documented range without its
upper end. -/
theorem montgomeryReduce_spec {a : Int} (h : -17996808470921216 ≤ a) (h' : a < 17996808470921216) :
    Returns (fun r => -q < r ∧ r < q ∧ (r * 4294967296 - a) % q = 0) (montgomeryReduce a) := by
  obtain ⟨r, hr, heq⟩ := montgomeryReduce_eq ⟨h, Int.le_of_lt h'⟩
  have ht := toI32_inI32 (toI32 a * qinv)
  rw [← montgomeryFactor] at ht
  refine ⟨r, hr, ?_⟩
  generalize montgomeryFactor a = t at heq ht
  unfold InI32 at ht
  unfold q at heq ⊢
  omega

/-- Small inputs leave little more than half of `q`. -/
theorem montgomeryReduce_small {a : Int} (h : -90147068533766 ≤ a) (h' : a ≤ 90147068533766) :
    Returns (fun r => -4211197 ≤ r ∧ r ≤ 4211197 ∧ (r * 4294967296 - a) % q = 0) (montgomeryReduce a) := by
  obtain ⟨r, hr, heq⟩ := montgomeryReduce_eq (a := a) ⟨by omega, by omega⟩
  have ht := toI32_inI32 (toI32 a * qinv)
  rw [← montgomeryFactor] at ht
  refine ⟨r, hr, ?_⟩
  generalize montgomeryFactor a = t at heq ht
  unfold InI32 at ht
  unfold q at heq ⊢
  omega

theorem montgomeryReduce_top : montgomeryReduce 17996808470921216 = .ok q := by decide

/-! ## Reduction without division -/

/-- **`reduce32` is defined below `2^31 - 2^22`** and nowhere else. -/
theorem reduce32_spec {a : Int} (h : InI32 a) (hlt : a < 2143289344) :
    Returns (fun r => -6283009 ≤ r ∧ r ≤ 6283008 ∧ (r - a) % q = 0) (reduce32 a) := by
  unfold InI32 at h
  have hdiv : (a + 4194304) >>> (23 : Nat) = (a + 4194304) / 8388608 := Int.shiftRight_eq_div_pow ..
  refine (returns_i32 (x := a + 4194304) (by unfold InI32; omega)).bind ?_
  rintro _ rfl
  rw [hdiv]
  refine (returns_i32 (x := (a + 4194304) / 8388608 * q) (by unfold InI32 q; omega)).bind ?_
  rintro _ rfl
  refine (returns_i32 (by unfold InI32 q; omega)).mono ?_
  rintro _ rfl
  unfold q
  omega

theorem reduce32_undefined {a : Int} (hge : 2143289344 ≤ a) : reduce32 a = .error .undefined := by
  rw [reduce32, i32_undefined (x := a + 4194304) (by unfold InI32; omega)]
  rfl

/-- One less than documented. -/
theorem reduce32_lowest : reduce32 (-2143289344) = .ok (-6283009) := by decide

theorem caddq_spec {a : Int} (h : -q ≤ a) (hlt : a < q) :
    Returns (fun r => 0 ≤ r ∧ r < q ∧ (r - a) % q = 0) (caddq a) := by
  unfold q at h hlt
  refine ⟨a + if a < 0 then q else 0, i32_ok ?_, ?_⟩
  · unfold InI32 q
    split <;> omega
  · unfold q
    split <;> omega

end BitcoinPqc.Dilithium
