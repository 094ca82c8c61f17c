import Mathlib.Tactic.Common

/-!
# Algorithm numbers, error codes and the three size tables

Sizes are written down three times in the repository: as constants of the public headers, as
arithmetic over the parameter sets of the vendored schemes, and (for secp256k1) as literals.
Each table is kept as its source has it; `mlDsa44_sizes` and `slhDsaShake128s_sizes` say that
the headers agree with the parameter arithmetic.

| here | there |
| --- | --- |
| `AlgorithmT`, `ErrorT` | `bitcoin_pqc_algorithm_t`, `bitcoin_pqc_error_t` (include/libbitcoinpqc/bitcoinpqc.h:21-34) |
| `mlDsa44…`, `slhDsaShake128s…` | include/libbitcoinpqc/ml_dsa.h:13-15, slh_dsa.h:13-15 |
| `Dilithium.…` | dilithium/ref/params.h with `DILITHIUM_MODE = 2` |
| `Spx.…` | sphincsplus/ref/params/params-sphincs-shake-128s.h |
| `bitcoinPqc…Size` | src/bitcoinpqc.c:15-52 |
-/
namespace BitcoinPqc

abbrev Bytes := List UInt8

/-- A C enum argument is any value of its integer type, not only one of the named ones. -/
abbrev AlgorithmT := UInt32

def bitcoinPqcSecp256k1Schnorr : AlgorithmT := 0
def bitcoinPqcMlDsa44 : AlgorithmT := 1
def bitcoinPqcSlhDsaShake128s : AlgorithmT := 2

inductive ErrorT where
  | ok | badArg | badKey | badSignature | notImplemented
  deriving DecidableEq, Repr

def ErrorT.code : ErrorT → Int
  | .ok => 0
  | .badArg => -1
  | .badKey => -2
  | .badSignature => -3
  | .notImplemented => -4

/-! ## The public headers -/

def mlDsa44PublicKeySize : Nat := 1312
def mlDsa44SecretKeySize : Nat := 2560
def mlDsa44SignatureSize : Nat := 2420

def slhDsaShake128sPublicKeySize : Nat := 32
def slhDsaShake128sSecretKeySize : Nat := 64
def slhDsaShake128sSignatureSize : Nat := 7856

/-! ## The parameter sets of the vendored schemes -/

namespace Dilithium

def seedbytes : Nat := 32
def trbytes : Nat := 64
def rndbytes : Nat := 32
def k : Nat := 4
def l : Nat := 4
def omega : Nat := 80
def ctildebytes : Nat := 32
def polyt1Packedbytes : Nat := 320
def polyt0Packedbytes : Nat := 416
def polyvechPackedbytes : Nat := omega + k
/-- `GAMMA1 == (1 << 17)`. -/
def polyzPackedbytes : Nat := 576
/-- `ETA == 2`. -/
def polyetaPackedbytes : Nat := 96
def cryptoPublickeybytes : Nat := seedbytes + k * polyt1Packedbytes
def cryptoSecretkeybytes : Nat :=
  2 * seedbytes + trbytes + l * polyetaPackedbytes + k * polyetaPackedbytes + k * polyt0Packedbytes
def cryptoBytes : Nat := ctildebytes + l * polyzPackedbytes + polyvechPackedbytes

end Dilithium

namespace Spx

def n : Nat := 16
def fullHeight : Nat := 63
def d : Nat := 7
def forsHeight : Nat := 12
def forsTrees : Nat := 14
/-- `SPX_WOTS_W == 16`. -/
def wotsLogw : Nat := 4
def wotsLen1 : Nat := 8 * n / wotsLogw
/-- `SPX_WOTS_W == 16` and `8 < SPX_N <= 136`. -/
def wotsLen2 : Nat := 3
def wotsLen : Nat := wotsLen1 + wotsLen2
def wotsBytes : Nat := wotsLen * n
def forsBytes : Nat := (forsHeight + 1) * forsTrees * n
def bytes : Nat := n + forsBytes + d * wotsBytes + fullHeight * n
def pkBytes : Nat := 2 * n
def skBytes : Nat := 2 * n + pkBytes
/-- `CRYPTO_SEEDBYTES` (sphincsplus/ref/api.h:13). -/
def cryptoSeedbytes : Nat := 3 * n

end Spx

theorem mlDsa44_sizes :
    mlDsa44PublicKeySize = Dilithium.cryptoPublickeybytes ∧
    mlDsa44SecretKeySize = Dilithium.cryptoSecretkeybytes ∧
    mlDsa44SignatureSize = Dilithium.cryptoBytes := by decide

theorem slhDsaShake128s_sizes :
    slhDsaShake128sPublicKeySize = Spx.pkBytes ∧ slhDsaShake128sSecretKeySize = Spx.skBytes ∧
    slhDsaShake128sSignatureSize = Spx.bytes := by decide

/-! ## The size functions -/

/-- The three switches have one shape; a size of 0 marks an unsupported algorithm. -/
def sizeSwitch (secp ml slh : Nat) (algorithm : AlgorithmT) : Nat :=
  if algorithm = bitcoinPqcSecp256k1Schnorr then secp
  else if algorithm = bitcoinPqcMlDsa44 then ml
  else if algorithm = bitcoinPqcSlhDsaShake128s then slh
  else 0

/-- src/bitcoinpqc.c:15 -/
def bitcoinPqcPublicKeySize : AlgorithmT → Nat :=
  sizeSwitch 32 mlDsa44PublicKeySize slhDsaShake128sPublicKeySize

/-- src/bitcoinpqc.c:28 -/
def bitcoinPqcSecretKeySize : AlgorithmT → Nat :=
  sizeSwitch 32 mlDsa44SecretKeySize slhDsaShake128sSecretKeySize

/-- src/bitcoinpqc.c:41 -/
def bitcoinPqcSignatureSize : AlgorithmT → Nat :=
  sizeSwitch 64 mlDsa44SignatureSize slhDsaShake128sSignatureSize

/-- The tables leave out the same algorithms. -/
theorem sizeSwitch_eq_zero {secp ml slh : Nat} (h₁ : 0 < secp) (h₂ : 0 < ml) (h₃ : 0 < slh) (a : AlgorithmT) :
    sizeSwitch secp ml slh a = 0 ↔
      a ≠ bitcoinPqcSecp256k1Schnorr ∧ a ≠ bitcoinPqcMlDsa44 ∧ a ≠ bitcoinPqcSlhDsaShake128s := by
  unfold sizeSwitch
  split
  · rename_i ha
    exact ⟨fun h => by omega, fun h => absurd ha h.1⟩
  split
  · rename_i ha
    exact ⟨fun h => by omega, fun h => absurd ha h.2.1⟩
  split
  · rename_i ha
    exact ⟨fun h => by omega, fun h => absurd ha h.2.2⟩
  · rename_i hsecp hml hslh
    exact ⟨fun _ => ⟨hsecp, hml, hslh⟩, fun _ => rfl⟩

end BitcoinPqc
