import BitcoinPqc.Fips202
import BitcoinPqc.Lib.Loops
import Mathlib.Data.Fintype.Basic
import Mathlib.Tactic.FinCases

/-!
# Keccak-f[1600]

`KeccakF1600_StatePermute` is unrolled: two rounds at a time over 25 local variables, every rotation
and every round constant a literal. `keccakF1600StatePermute_eq` says that it computes 24 rounds of
θ, ρ, π, χ and ι as they are defined on a grid of lanes, with the offsets of ρ read off the walk
that defines them and the round constants off the shift register that generates them.

| here | there |
| --- | --- |
| `rol`, `keccakFRoundConstants` | dilithium/ref/fips202.c:11, :48 and sphincsplus/ref/fips202.c:14, :49 |
| `keccakRound` | one half of the loop's body, dilithium/ref/fips202.c:127-220 (the other half, :222-315, has the names A and E swapped) |
| `keccakF1600StatePermute` | dilithium/ref/fips202.c:82, sphincsplus/ref/fips202.c:71 |
-/
namespace BitcoinPqc.Keccak
open CSem

/-! ## The code -/

/-- `ROL(a, offset)` -/
def rol (a : UInt64) (offset : Nat) : UInt64 := (a <<< offset.toUInt64) ^^^ (a >>> (64 - offset).toUInt64)

def keccakFRoundConstants : Vector UInt64 24 := #v[
  0x0000000000000001, 0x0000000000008082, 0x800000000000808a, 0x8000000080008000,
  0x000000000000808b, 0x0000000080000001, 0x8000000080008081, 0x8000000000008009,
  0x000000000000008a, 0x0000000000000088, 0x0000000080008009, 0x000000008000000a,
  0x000000008000808b, 0x800000000000008b, 0x8000000000008089, 0x8000000000008003,
  0x8000000000008002, 0x8000000000000080, 0x000000000000800a, 0x800000008000000a,
  0x8000000080008081, 0x8000000000008080, 0x0000000080000001, 0x8000000080008008]

/-- `prepareTheta` and `thetaRhoPiChiIotaPrepareTheta(round, A, E)`; the lanes are in the order of
the state: ba, be, bi, bo, bu, ga, …, su. -/
def keccakRound (A : Lanes) (rc : UInt64) : Lanes :=
  let bca := A[0] ^^^ A[5] ^^^ A[10] ^^^ A[15] ^^^ A[20]
  let bce := A[1] ^^^ A[6] ^^^ A[11] ^^^ A[16] ^^^ A[21]
  let bci := A[2] ^^^ A[7] ^^^ A[12] ^^^ A[17] ^^^ A[22]
  let bco := A[3] ^^^ A[8] ^^^ A[13] ^^^ A[18] ^^^ A[23]
  let bcu := A[4] ^^^ A[9] ^^^ A[14] ^^^ A[19] ^^^ A[24]
  let da := bcu ^^^ rol bce 1
  let de := bca ^^^ rol bci 1
  let di := bce ^^^ rol bco 1
  let do' := bci ^^^ rol bcu 1
  let du := bco ^^^ rol bca 1
  let bca := A[0] ^^^ da
  let bce := rol (A[6] ^^^ de) 44
  let bci := rol (A[12] ^^^ di) 43
  let bco := rol (A[18] ^^^ do') 21
  let bcu := rol (A[24] ^^^ du) 14
  let eba := bca ^^^ (~~~bce &&& bci)
  let eba := eba ^^^ rc
  let ebe := bce ^^^ (~~~bci &&& bco)
  let ebi := bci ^^^ (~~~bco &&& bcu)
  let ebo := bco ^^^ (~~~bcu &&& bca)
  let ebu := bcu ^^^ (~~~bca &&& bce)
  let bca := rol (A[3] ^^^ do') 28
  let bce := rol (A[9] ^^^ du) 20
  let bci := rol (A[10] ^^^ da) 3
  let bco := rol (A[16] ^^^ de) 45
  let bcu := rol (A[22] ^^^ di) 61
  let ega := bca ^^^ (~~~bce &&& bci)
  let ege := bce ^^^ (~~~bci &&& bco)
  let egi := bci ^^^ (~~~bco &&& bcu)
  let ego := bco ^^^ (~~~bcu &&& bca)
  let egu := bcu ^^^ (~~~bca &&& bce)
  let bca := rol (A[1] ^^^ de) 1
  let bce := rol (A[7] ^^^ di) 6
  let bci := rol (A[13] ^^^ do') 25
  let bco := rol (A[19] ^^^ du) 8
  let bcu := rol (A[20] ^^^ da) 18
  let eka := bca ^^^ (~~~bce &&& bci)
  let eke := bce ^^^ (~~~bci &&& bco)
  let eki := bci ^^^ (~~~bco &&& bcu)
  let eko := bco ^^^ (~~~bcu &&& bca)
  let eku := bcu ^^^ (~~~bca &&& bce)
  let bca := rol (A[4] ^^^ du) 27
  let bce := rol (A[5] ^^^ da) 36
  let bci := rol (A[11] ^^^ de) 10
  let bco := rol (A[17] ^^^ di) 15
  let bcu := rol (A[23] ^^^ do') 56
  let ema := bca ^^^ (~~~bce &&& bci)
  let eme := bce ^^^ (~~~bci &&& bco)
  let emi := bci ^^^ (~~~bco &&& bcu)
  let emo := bco ^^^ (~~~bcu &&& bca)
  let emu := bcu ^^^ (~~~bca &&& bce)
  let bca := rol (A[2] ^^^ di) 62
  let bce := rol (A[8] ^^^ do') 55
  let bci := rol (A[14] ^^^ du) 39
  let bco := rol (A[15] ^^^ da) 41
  let bcu := rol (A[21] ^^^ de) 2
  let esa := bca ^^^ (~~~bce &&& bci)
  let ese := bce ^^^ (~~~bci &&& bco)
  let esi := bci ^^^ (~~~bco &&& bcu)
  let eso := bco ^^^ (~~~bcu &&& bca)
  let esu := bcu ^^^ (~~~bca &&& bce)
  #v[eba, ebe, ebi, ebo, ebu, ega, ege, egi, ego, egu, eka, eke, eki, eko, eku, ema, eme, emi, emo, emu,
    esa, ese, esi, eso, esu]

/-- `round` goes up by two. -/
def keccakF1600StatePermute (state : Lanes) : Lanes :=
  forRange 12 (fun i A =>
    keccakRound (keccakRound A (keccakFRoundConstants[2 * i]?.getD 0)) (keccakFRoundConstants[2 * i + 1]?.getD 0)) state

/-! ## The permutation -/

/-- Lane `x`, `y` of the state. -/
abbrev Grid := Fin 5 → Fin 5 → UInt64

def grid (A : Lanes) : Grid := fun x y => A[5 * y.1 + x.1]

def rotl (a : UInt64) (k : Nat) : UInt64 := ⟨a.toBitVec.rotateLeft k⟩

def theta (A : Grid) : Grid := fun x y =>
  let column := fun x => A x 0 ^^^ A x 1 ^^^ A x 2 ^^^ A x 3 ^^^ A x 4
  A x y ^^^ (column (x - 1) ^^^ rotl (column (x + 1)) 1)

/-- The lane visited at step `t` of the walk that starts at (1, 0). -/
def rhoWalk : Nat → Fin 5 × Fin 5
  | 0 => (1, 0)
  | t + 1 => ((rhoWalk t).2, 2 * (rhoWalk t).1 + 3 * (rhoWalk t).2)

/-- The walk visits every lane but (0, 0), which is not rotated. -/
def rhoOffset (x y : Fin 5) : Nat :=
  match (List.range 24).find? fun t => rhoWalk t = (x, y) with
  | some t => (t + 1) * (t + 2) / 2 % 64
  | none => 0

def rho (A : Grid) : Grid := fun x y => rotl (A x y) (rhoOffset x y)

def pi (A : Grid) : Grid := fun x y => A (x + 3 * y) x

def chi (A : Grid) : Grid := fun x y => A x y ^^^ (~~~A (x + 1) y &&& A (x + 2) y)

/-- The shift register with the polynomial `x⁸ + x⁶ + x⁵ + x⁴ + 1`. -/
def rcStep (r : Nat) : Nat := if r < 128 then 2 * r else (2 * r) ^^^ 0x171

def rcState : Nat → Nat
  | 0 => 1
  | t + 1 => rcStep (rcState t)

def rcBit (t : Nat) : Nat := rcState (t % 255) % 2

def iotaConstant (round : Nat) : Nat :=
  ((List.range 7).map fun j => rcBit (j + 7 * round) <<< (2 ^ j - 1)).sum

def iota (round : Nat) (A : Grid) : Grid := fun x y =>
  if x = 0 ∧ y = 0 then A x y ^^^ UInt64.ofNat (iotaConstant round) else A x y

def keccakF (A : Grid) : Grid := forRange 24 (fun round A => iota round (chi (pi (rho (theta A))))) A

/-! ## The code computes the permutation -/

theorem roundConstants_eq : ∀ round < 24, keccakFRoundConstants[round]?.getD 0 = UInt64.ofNat (iotaConstant round) := by
  decide

theorem toBitVec_shift {k : Nat} (h : k < 64) : (k.toUInt64.toBitVec % 64).toNat = k := by
  simp [Nat.mod_eq_of_lt h]

theorem rol_eq (a : UInt64) {k : Nat} (h0 : 0 < k) (h : k < 64) : rol a k = rotl a k := by
  apply UInt64.toBitVec_inj.mp
  apply BitVec.eq_of_getLsbD_eq
  intro i hi
  have hleft := toBitVec_shift h
  have hright := toBitVec_shift (k := 64 - k) (by omega)
  simp only [rol, rotl, UInt64.toBitVec_xor, UInt64.toBitVec_shiftLeft, UInt64.toBitVec_shiftRight, BitVec.getLsbD_xor,
    BitVec.shiftLeft_eq', BitVec.ushiftRight_eq', hleft, hright, BitVec.getLsbD_shiftLeft, BitVec.getLsbD_ushiftRight,
    BitVec.getLsbD_rotateLeft, Nat.mod_eq_of_lt h, hi]
  by_cases hlt : i < k
  · simp [hlt]
  · have hhigh : a.toBitVec.getLsbD (64 - k + i) = false := BitVec.getLsbD_of_ge _ _ (by omega)
    simp [hlt, hhigh]

theorem rotl_zero (a : UInt64) : rotl a 0 = a := by
  apply UInt64.toBitVec_inj.mp
  apply BitVec.eq_of_getLsbD_eq
  intro i hi
  simp [rotl, hi]

/-- The lanes of the code, its literals read off the grid. -/
theorem grid_keccakRound_apply (A : Lanes) (round : Nat) (rc : UInt64) (hrc : UInt64.ofNat (iotaConstant round) = rc) :
    ∀ x y, grid (keccakRound A rc) x y = iota round (chi (pi (rho (theta (grid A))))) x y := by
  intro x y
  unfold keccakRound iota
  rw [hrc]
  simp only [rol_eq, Nat.reduceLT]
  fin_cases y
  · fin_cases x
    -- the lane (0, 0) is not rotated
    · show _ ^^^ _ ^^^ rc = rotl _ 0 ^^^ _ ^^^ rc
      rw [rotl_zero]
      rfl
    · rfl
    · rfl
    · show _ ^^^ (_ &&& _) = _ ^^^ (_ &&& rotl _ 0)
      rw [rotl_zero]
      rfl
    · show _ ^^^ (_ &&& _) = _ ^^^ (~~~rotl _ 0 &&& _)
      rw [rotl_zero]
      rfl
  all_goals fin_cases x <;> rfl

/-- **One half of the loop's body is one round**, lane by lane. -/
theorem grid_keccakRound (A : Lanes) {round : Nat} (h : round < 24) :
    grid (keccakRound A (keccakFRoundConstants[round]?.getD 0)) = iota round (chi (pi (rho (theta (grid A))))) := by
  rw [roundConstants_eq round h]
  funext x y
  exact grid_keccakRound_apply A round _ rfl x y

/-- **The unrolled permutation is Keccak-f[1600].** -/
theorem keccakF1600StatePermute_eq (A : Lanes) : grid (keccakF1600StatePermute A) = keccakF (grid A) := by
  rw [keccakF, show 24 = 2 * 12 from rfl, forRange_two_mul]
  exact forRange_rel (fun _ A G => grid A = G) rfl fun round hround A G hG => by
    rw [← hG, ← grid_keccakRound _ (show 2 * round < 24 by omega), ← grid_keccakRound _ (show 2 * round + 1 < 24 by omega)]

end BitcoinPqc.Keccak
