import BitcoinPqc.Dilithium.Encoding
import BitcoinPqc.Dilithium.Sample

/-!
# Key generation, signing, verification

sign.c, given the bytes it draws. Signing tries again, with the next nonce, until an attempt passes
four checks; `signAttempt` is one attempt. The number of tries is bounded by fuel, like the loops of
the samplers. A wrong length, a malformed signature and a wrong one all give -1.

| here | there |
| --- | --- |
| `cryptoSignKeypair`, `cryptoSignSignatureInternal`, `cryptoSignSignature` | dilithium/ref/sign.c:23, :85, :206 |
| `cryptoSign`, `cryptoSignVerifyInternal`, `cryptoSignVerify`, `cryptoSignOpen` | :256, :289, :375, :413 |
-/
namespace BitcoinPqc.Dilithium
open CSem Keccak

variable (perm : Lanes → Lanes)

def crhbytes : Nat := 64

/-- `seed` is what `randombytes` writes. Returns `pk` and `sk`. -/
def cryptoSignKeypair (fuel : Nat) (seed : Bytes) : Eval (Bytes × Bytes) := do
  let seedbuf ← ofOption (shake256 perm (2 * seedbytes + crhbytes) (seed ++ [UInt8.ofNat k, UInt8.ofNat l]))
  let rho := seedbuf.take seedbytes
  let rhoprime := (seedbuf.drop seedbytes).take crhbytes
  let key := (seedbuf.drop (seedbytes + crhbytes)).take seedbytes
  let mat ← matrixExpand perm fuel rho
  let s1 ← polyveclUniformEta perm fuel rhoprime 0
  let s2 ← polyveckUniformEta perm fuel rhoprime (UInt16.ofNat l)
  let s1hat ← polyveclNtt s1
  let t1 ← polyvecMatrixPointwiseMontgomery mat s1hat
  let t1 ← polyveckReduce t1
  let t1 ← polyveckInvnttTomont t1
  let t1 ← polyveckAdd t1 s2
  let t1 ← polyveckCaddq t1
  let (t1, t0) ← polyveckPower2round t1
  let pk ← packPk rho t1
  let tr ← ofOption (shake256 perm trbytes pk)
  let sk ← packSk { rho, tr, key, t0, s1, s2 }
  .ok (pk, sk)

/-- What the attempts share; the vectors are transformed. -/
structure Signer where
  mat : Matrix
  s1 : Polyvecl
  s2 : Polyveck
  t0 : Polyveck
  mu : Bytes
  rhoprime : Bytes

/-- From `unpack_sk` to `rej`. -/
def signer (fuel : Nat) (m pre rnd sk : Bytes) : Eval Signer := do
  let sk ← unpackSk sk
  let mu ← shake256Pieces perm crhbytes [sk.tr, pre, m]
  let rhoprime ← shake256Pieces perm crhbytes [sk.key, rnd, mu]
  let mat ← matrixExpand perm fuel sk.rho
  let s1 ← polyveclNtt sk.s1
  let s2 ← polyveckNtt sk.s2
  let t0 ← polyveckNtt sk.t0
  .ok { mat, s1, s2, t0, mu, rhoprime }

/-- `y`, the challenge hash and the high and low parts of `w`. -/
def signCommit (x : Signer) (nonce : UInt16) : Eval (Polyvecl × Bytes × Polyveck × Polyveck) := do
  let y ← polyveclUniformGamma1 perm x.rhoprime nonce
  let z ← polyveclNtt y
  let w1 ← polyvecMatrixPointwiseMontgomery x.mat z
  let w1 ← polyveckReduce w1
  let w1 ← polyveckInvnttTomont w1
  let w1 ← polyveckCaddq w1
  let (w1, w0) ← polyveckDecompose w1
  let sig ← polyveckPackW1 w1
  let c ← shake256Pieces perm ctildebytes [x.mu, sig]
  .ok (y, c, w1, w0)

/-- From the challenge, transformed, to the four checks; `none` where the source goes to `rej`. -/
def signRespond (x : Signer) (cp : Poly) (y : Polyvecl) (w1 w0 : Polyveck) : Eval (Option (Polyvecl × Polyveck)) := do
  let z ← polyveclPointwisePolyMontgomery cp x.s1
  let z ← polyveclInvnttTomont z
  let z ← polyveclAdd z y
  let z ← polyveclReduce z
  if ← polyveclChknorm z (gamma1 - beta) then .ok none
  else
    let h ← polyveckPointwisePolyMontgomery cp x.s2
    let h ← polyveckInvnttTomont h
    let w0 ← polyveckSub w0 h
    let w0 ← polyveckReduce w0
    if ← polyveckChknorm w0 (gamma2 - beta) then .ok none
    else
      let h ← polyveckPointwisePolyMontgomery cp x.t0
      let h ← polyveckInvnttTomont h
      let h ← polyveckReduce h
      if ← polyveckChknorm h gamma2 then .ok none
      else
        let w0 ← polyveckAdd w0 h
        let (h, n) := polyveckMakeHint w0 w1
        if n > omega then .ok none else .ok (some (z, h))

/-- From `rej` to the next `goto rej`, or to the end. -/
def signAttempt (fuel : Nat) (x : Signer) (nonce : UInt16) : Eval (Option Bytes) := do
  let (y, c, w1, w0) ← signCommit perm x nonce
  let cp ← polyChallenge perm fuel c
  let cp ← polyNtt cp
  match ← signRespond x cp y w1 w0 with
  | none => .ok none
  | some (z, h) => .ok (some (← packSig c z h))

/-- The nonce has 16 bits. -/
def signLoop (fuel : Nat) (x : Signer) : Nat → UInt16 → Eval Bytes
  | 0, _ => .error .fuel
  | tries + 1, nonce => do
    match ← signAttempt perm fuel x nonce with
    | some sig => .ok sig
    | none => signLoop fuel x tries (nonce + 1)

def cryptoSignSignatureInternal (fuel : Nat) (m pre rnd sk : Bytes) : Eval Bytes := do
  signLoop perm fuel (← signer perm fuel m pre rnd sk) fuel 0

/-- `rnd` is what `randombytes` writes. `none` where the source returns -1. -/
def cryptoSignSignature (fuel : Nat) (m ctx rnd sk : Bytes) : Eval (Option Bytes) :=
  if ctx.length > 255 then .ok none
  else do .ok (some (← cryptoSignSignatureInternal perm fuel m (0 :: UInt8.ofNat ctx.length :: ctx) rnd sk))

def cryptoSign (fuel : Nat) (m ctx rnd sk : Bytes) : Eval (Option Bytes) := do
  match ← cryptoSignSignature perm fuel m ctx rnd sk with
  | none => .ok none
  | some sig => .ok (some (sig ++ m))

/-- From the unpacked key and signature to the packed high bits. -/
def verifyCommit (mat : Matrix) (t1 : Polyveck) (cp : Poly) (z : Polyvecl) (h : Polyveck) : Eval Bytes := do
  let z ← polyveclNtt z
  let w1 ← polyvecMatrixPointwiseMontgomery mat z
  let cp ← polyNtt cp
  let t1 ← polyveckShiftl t1
  let t1 ← polyveckNtt t1
  let t1 ← polyveckPointwisePolyMontgomery cp t1
  let w1 ← polyveckSub w1 t1
  let w1 ← polyveckReduce w1
  let w1 ← polyveckInvnttTomont w1
  let w1 ← polyveckCaddq w1
  let w1 ← polyveckUseHint w1 h
  polyveckPackW1 w1

def cryptoSignVerifyInternal (fuel : Nat) (sig m pre pk : Bytes) : Eval Int :=
  if sig.length ≠ cryptoBytes then .ok (-1)
  else do
    let pk ← take? cryptoPublickeybytes pk
    let (rho, t1) ← unpackPk pk
    match ← unpackSig sig with
    | none => .ok (-1)
    | some (c, z, h) =>
      if ← polyveclChknorm z (gamma1 - beta) then .ok (-1)
      else
        let mu ← ofOption (shake256 perm trbytes pk)
        let mu ← shake256Pieces perm crhbytes [mu, pre, m]
        let cp ← polyChallenge perm fuel c
        let mat ← matrixExpand perm fuel rho
        let buf ← verifyCommit mat t1 cp z h
        let c2 ← shake256Pieces perm ctildebytes [mu, buf]
        .ok (if c = c2 then 0 else -1)

def cryptoSignVerify (fuel : Nat) (sig m ctx pk : Bytes) : Eval Int :=
  if ctx.length > 255 then .ok (-1)
  else cryptoSignVerifyInternal perm fuel sig m (0 :: UInt8.ofNat ctx.length :: ctx) pk

/-- The code and what is written to `m`; `*mlen` is its length when the code is 0, and 0 otherwise. -/
def cryptoSignOpen (fuel : Nat) (sm ctx pk : Bytes) : Eval (Int × Bytes) :=
  if sm.length < cryptoBytes then .ok (-1, List.replicate sm.length 0)
  else do
    if (← cryptoSignVerify perm fuel (sm.take cryptoBytes) (sm.drop cryptoBytes) ctx pk) ≠ 0 then
      .ok (-1, List.replicate sm.length 0)
    else .ok (0, sm.drop cryptoBytes)

end BitcoinPqc.Dilithium
