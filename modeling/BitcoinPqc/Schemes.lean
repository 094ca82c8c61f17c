import BitcoinPqc.Derandomize

/-!
# The two scheme wrappers

`src/ml_dsa/` and `src/slh_dsa/` call the vendored schemes. What those compute is a parameter,
`Vendored`: arbitrary functions of their inputs and of the bytes they draw, with the array sizes
of their interface as the only law. When they draw, and how much, is their source's.

| here | there |
| --- | --- |
| `dilithiumKeypair`, … (`Exec`) | dilithium/ref/sign.c:23, :206, :385, with their calls of `randombytes` |
| `spxSeedKeypair`, … (`Exec`) | sphincsplus/ref/sign.c:52, :97, :175 |
| `mlDsa44Keygen`, `mlDsa44Sign`, `mlDsa44Verify` | src/ml_dsa/{keygen,sign,verify}.c |
| `slhDsaShake128sKeygen`, … | src/slh_dsa/{keygen,sign,verify}.c |

Messages on `stderr` are left out; the debug prints are compiled out.
-/
namespace BitcoinPqc
open CSem

/-! ## The vendored schemes -/

/-- What key generation writes into its two arrays, and the code it returns. -/
structure KeyOut (pkSize skSize : Nat) where
  result : Int
  pk : Bytes
  sk : Bytes
  pk_length : pk.length = pkSize
  sk_length : sk.length = skSize

/-- What a signer writes into an array of `cap` bytes, the length it reports being that of what
it wrote, and the code it returns. -/
structure SigOut (cap : Nat) where
  result : Int
  sig : Bytes
  fits : sig.length ≤ cap

/-- `temp_sig[CRYPTO_BYTES + 1024]` -/
def tempSigSize : Nat := Dilithium.cryptoBytes + 1024

structure Vendored where
  keccakF1600StatePermute : Lanes → Lanes
  /-- `crypto_sign_keypair` on the bytes it drew. -/
  dilithiumKeypair : Bytes → KeyOut Dilithium.cryptoPublickeybytes Dilithium.cryptoSecretkeybytes
  /-- `crypto_sign_signature_internal` on message, prefix, `rnd` and key, with the code
  `crypto_sign_signature` returns after it (0 in the vendored version). -/
  dilithiumSignature : (m pre rnd sk : Bytes) → SigOut tempSigSize
  dilithiumVerify : (sig m pre pk : Bytes) → Int
  spxSeedKeypair : Bytes → KeyOut Spx.pkBytes Spx.skBytes
  spxSignature : (m sk optrand : Bytes) → SigOut Spx.bytes
  spxVerify : (sig m pk : Bytes) → Int

/-- `n` bytes: the beginning of `bs`, padded with zeros. -/
def fit (n : Nat) (bs : Bytes) : Bytes := bs.take n ++ List.replicate (n - (bs.take n).length) 0

@[simp] theorem length_fit (n : Nat) (bs : Bytes) : (fit n bs).length = n := by
  simp only [fit, List.length_append, List.length_replicate]
  have := List.length_take_le n bs
  omega

theorem take_fit {n k : Nat} {bs : Bytes} (hk : k ≤ n) (hlen : k ≤ bs.length) : (fit n bs).take k = bs.take k := by
  rw [fit, List.take_append_of_le_length (by rw [List.length_take]; omega), List.take_take, Nat.min_eq_left hk]

/-- Schemes to run the model with: keys are the bytes drawn, a signature is the randomness it was
made with, and every signature of the right length verifies. -/
def Vendored.sample : Vendored where
  keccakF1600StatePermute := id
  dilithiumKeypair seed := ⟨0, fit _ seed, fit _ seed, length_fit _ _, length_fit _ _⟩
  dilithiumSignature _ _ rnd _ := ⟨0, fit Dilithium.cryptoBytes rnd, by rw [length_fit]; decide⟩
  dilithiumVerify sig _ _ _ := if sig.length = Dilithium.cryptoBytes then 0 else -1
  spxSeedKeypair seed := ⟨0, fit _ (seed.drop (2 * Spx.n)), fit _ seed, length_fit _ _, length_fit _ _⟩
  spxSignature _ _ optrand := ⟨0, fit Spx.bytes optrand, Nat.le_of_eq (length_fit _ _)⟩
  spxVerify sig _ _ := if sig.length = Spx.bytes then 0 else -1

variable (V : Vendored) (S : Sys)

/-- `pre = (0, ctxlen, ctx)` -/
def contextPrefix (ctx : Bytes) : Bytes := 0 :: UInt8.ofNat ctx.length :: ctx

/-- dilithium/ref/sign.c:23 -/
def dilithiumKeypair (pk sk : Ptr) : Exec World Int := do
  let seed ← randombytes S Dilithium.seedbytes
  let out := V.dilithiumKeypair seed
  onHeap (Heap.write pk 0 out.pk)
  onHeap (Heap.write sk 0 out.sk)
  pure out.result

/-- dilithium/ref/sign.c:206, with `DILITHIUM_RANDOMIZED_SIGNING` (config.h:5); the output array
is the caller's stack buffer. -/
def dilithiumSignature (m ctx sk : Bytes) : Exec World (SigOut tempSigSize) :=
  if ctx.length > 255 then pure ⟨-1, [], Nat.zero_le _⟩
  else do
    let rnd ← randombytes S Dilithium.rndbytes
    pure (V.dilithiumSignature m (contextPrefix ctx) rnd sk)

/-- dilithium/ref/sign.c:385 -/
def dilithiumVerify (sig m ctx pk : Bytes) : Int :=
  if ctx.length > 255 then -1 else V.dilithiumVerify sig m (contextPrefix ctx) pk

/-- sphincsplus/ref/sign.c:52, which reads `CRYPTO_SEEDBYTES` of the buffer it is given. -/
def spxSeedKeypair (pk sk : Ptr) (seed : Bytes) : Exec World Int := do
  let out := V.spxSeedKeypair (← Exec.ofOption (readAt seed 0 Spx.cryptoSeedbytes))
  onHeap (Heap.write sk 0 out.sk)
  onHeap (Heap.write pk 0 out.pk)
  pure out.result

/-- sphincsplus/ref/sign.c:97 -/
def spxSignature (sig : Ptr) (m sk : Bytes) : Exec World (Int × Nat) := do
  let optrand ← randombytes S Spx.n
  let out := V.spxSignature m sk optrand
  onHeap (Heap.write sig 0 out.sig)
  pure (out.result, out.sig.length)

/-! ## The wrappers -/

/-- src/ml_dsa/keygen.c:23 -/
def mlDsa44Keygen (pk sk : Option Ptr) (randomData : CBuf) : Exec World Int :=
  match pk, sk, randomData with
  | some pk, some sk, .buf bytes =>
    if bytes.length < 128 then pure (-1)
    else do
      mlDsaInitRandomSource (.buf bytes)
      mlDsaSetupCustomRandom
      let result ← dilithiumKeypair V S pk sk
      mlDsaRestoreOriginalRandom
      pure result
  | _, _, _ => pure (-1)

/-- src/slh_dsa/keygen.c:22: the buffer goes to the seed generator, past the entropy source. -/
def slhDsaShake128sKeygen (pk sk : Option Ptr) (randomData : CBuf) : Exec World Int :=
  match pk, sk, randomData with
  | some pk, some sk, .buf bytes =>
    if bytes.length < 128 then pure (-1) else spxSeedKeypair V pk sk bytes
  | _, _, _ => pure (-1)

/-- The end of `ml_dsa_44_sign` (sign.c:71-95): the length is checked again before the copy. -/
def copyChecked (sig : Ptr) (out : SigOut tempSigSize) : Exec World (Int × Option Nat) :=
  if out.result = 0 then
    if 0 < out.sig.length ∧ out.sig.length ≤ Dilithium.cryptoBytes then do
      onHeap (Heap.write sig 0 out.sig)
      pure (out.result, some out.sig.length)
    else pure (-1, none)
  else pure (out.result, none)

/-- src/ml_dsa/sign.c:32. The second component is `*siglen` when it was written. -/
def mlDsa44Sign (sig : Option Ptr) (m : CBuf) (sk : Option Bytes) : Exec World (Int × Option Nat) :=
  match sig, m, sk with
  | some sig, .buf m, some sk => do
    let deterministicSeed ← Exec.ofOption (mlDsaDerandomize V.keccakF1600StatePermute m sk)
    mlDsaInitRandomSource (.buf deterministicSeed)
    mlDsaSetupCustomRandom
    let out ← dilithiumSignature V S m [] sk
    mlDsaRestoreOriginalRandom
    copyChecked sig out
  | _, _, _ => pure (-1, none)

/-- src/slh_dsa/sign.c:31 -/
def slhDsaShake128sSign (sig : Option Ptr) (m : CBuf) (sk : Option Bytes) : Exec World (Int × Option Nat) :=
  match sig, m, sk with
  | some sig, .buf m, some sk => do
    let deterministicSeed ← slhDsaDerandomize S m sk
    slhDsaInitRandomSource (.buf deterministicSeed)
    slhDsaSetupCustomRandom
    let (result, siglen) ← spxSignature V S sig m sk
    slhDsaRestoreOriginalRandom
    pure (result, some siglen)
  | _, _, _ => pure (-1, none)

/-- src/ml_dsa/verify.c:22 -/
def mlDsa44Verify (sig m pk : Option Bytes) : Int :=
  match sig, m, pk with
  | some sig, some m, some pk =>
    if sig.length = 0 ∨ sig.length > Dilithium.cryptoBytes then -1 else dilithiumVerify V sig m [] pk
  | _, _, _ => -1

/-- src/slh_dsa/verify.c:12 -/
def slhDsaShake128sVerify (sig m pk : Option Bytes) : Int :=
  match sig, m, pk with
  | some sig, some m, some pk => V.spxVerify sig m pk
  | _, _, _ => -1

end BitcoinPqc
