import BitcoinPqc.SchemesProofs

/-!
# The C entry points

`src/bitcoinpqc.c` dispatches on the algorithm, allocates the output buffers and hands them to
the scheme wrappers. A structure pointer that a call may write through is passed in and out:
`none` is a null pointer, and a call returns its code with the structure as it left it.

| here | there |
| --- | --- |
| `KeypairT`, `SignatureT` | include/libbitcoinpqc/bitcoinpqc.h:39-54 |
| `bitcoinPqcKeygen`, `bitcoinPqcKeypairFree` | src/bitcoinpqc.c:54, :121 |
| `bitcoinPqcSign`, `bitcoinPqcSignatureFree` | src/bitcoinpqc.c:144, :224 |
| `bitcoinPqcVerify` | src/bitcoinpqc.c:239 |
-/
namespace BitcoinPqc
open CSem

structure KeypairT where
  algorithm : AlgorithmT
  publicKey : Option Ptr
  secretKey : Option Ptr
  publicKeySize : Nat
  secretKeySize : Nat
  deriving DecidableEq

structure SignatureT where
  algorithm : AlgorithmT
  signature : Option Ptr
  signatureSize : Nat
  deriving DecidableEq

def KeypairT.zero : KeypairT := ⟨0, none, none, 0, 0⟩

def SignatureT.zero : SignatureT := ⟨0, none, 0⟩

variable (V : Vendored) (S : Sys)

/-! ## Key pairs -/

/-- The switch of `bitcoin_pqc_keygen` (bitcoinpqc.c:87-103); `none` is its default branch. -/
def keygenSwitch (algorithm : AlgorithmT) (pk sk : Option Ptr) (randomData : CBuf) : Exec World (Option Int) :=
  if algorithm = bitcoinPqcSecp256k1Schnorr then pure (some (-1))
  else if algorithm = bitcoinPqcMlDsa44 then some <$> mlDsa44Keygen V S pk sk randomData
  else if algorithm = bitcoinPqcSlhDsaShake128s then some <$> slhDsaShake128sKeygen V pk sk randomData
  else pure none

/-- bitcoinpqc.c:54 -/
def bitcoinPqcKeygen (algorithm : AlgorithmT) (keypair : Option KeypairT) (randomData : CBuf) :
    Exec World (ErrorT × Option KeypairT) :=
  if keypair = none ∨ randomData.data = none then pure (.badArg, keypair)
  else if randomData.size < 128 then pure (.badArg, keypair)
  else
    let pkSize := bitcoinPqcPublicKeySize algorithm
    let skSize := bitcoinPqcSecretKeySize algorithm
    if pkSize = 0 ∨ skSize = 0 then pure (.badArg, keypair)
    else do
      let pk ← onHeap (Heap.malloc S.alloc pkSize)
      let sk ← onHeap (Heap.malloc S.alloc skSize)
      if pk = none ∨ sk = none then do
        onHeap (Heap.free pk)
        onHeap (Heap.free sk)
        pure (.badArg, keypair)
      else do
        match ← keygenSwitch V S algorithm pk sk randomData with
        | none => do
          onHeap (Heap.free pk)
          onHeap (Heap.free sk)
          pure (.notImplemented, keypair)
        | some result =>
          if result ≠ 0 then do
            onHeap (Heap.free pk)
            onHeap (Heap.free sk)
            pure (.badKey, keypair)
          else pure (.ok, some ⟨algorithm, pk, sk, pkSize, skSize⟩)

/-- `memset` by the recorded size, then `free`; a null field is skipped. -/
def clearAndFree (p : Option Ptr) (size : Nat) : Exec World Unit :=
  match p with
  | none => pure ()
  | some p => do
    onHeap (Heap.write p 0 (List.replicate size 0))
    onHeap (Heap.free (some p))

/-- bitcoinpqc.c:121 -/
def bitcoinPqcKeypairFree (keypair : Option KeypairT) : Exec World (Option KeypairT) :=
  match keypair with
  | none => pure none
  | some kp => do
    clearAndFree kp.publicKey kp.publicKeySize
    clearAndFree kp.secretKey kp.secretKeySize
    pure (some ⟨0, none, none, 0, 0⟩)

/-! ## Signatures -/

/-- The switch of `bitcoin_pqc_sign` (bitcoinpqc.c:183-204). -/
def signSwitch (algorithm : AlgorithmT) (sig : Option Ptr) (message secretKey : CBuf) :
    Exec World (Option (Int × Option Nat)) :=
  if algorithm = bitcoinPqcSecp256k1Schnorr then pure (some (-1, none))
  else if algorithm = bitcoinPqcMlDsa44 then some <$> mlDsa44Sign V S sig message secretKey.data
  else if algorithm = bitcoinPqcSlhDsaShake128s then
    some <$> slhDsaShake128sSign V S sig message secretKey.data
  else pure none

/-- bitcoinpqc.c:144. Reading `actual_sig_len` before a scheme has written it is undefined. -/
def bitcoinPqcSign (algorithm : AlgorithmT) (secretKey message : CBuf) (signature : Option SignatureT) :
    Exec World (ErrorT × Option SignatureT) :=
  if secretKey.data = none ∨ message.data = none ∨ signature = none then pure (.badArg, signature)
  else if secretKey.size ≠ bitcoinPqcSecretKeySize algorithm then pure (.badKey, signature)
  else
    let sigSize := bitcoinPqcSignatureSize algorithm
    if sigSize = 0 then pure (.badArg, signature)
    else do
      let sig ← onHeap (Heap.malloc S.alloc sigSize)
      if sig = none then pure (.badArg, signature)
      else do
        match ← signSwitch V S algorithm sig message secretKey with
        | none => do
          onHeap (Heap.free sig)
          pure (.notImplemented, signature)
        | some (result, actualSigLen) =>
          if result ≠ 0 then do
            onHeap (Heap.free sig)
            pure (.badSignature, signature)
          else do
            let siglen ← Exec.ofOption actualSigLen
            pure (.ok, some ⟨algorithm, sig, siglen⟩)

/-- bitcoinpqc.c:224 -/
def bitcoinPqcSignatureFree (signature : Option SignatureT) : Exec World (Option SignatureT) :=
  match signature with
  | none => pure none
  | some s => do
    clearAndFree s.signature s.signatureSize
    pure (some ⟨0, none, 0⟩)

/-- The switch of `bitcoin_pqc_verify` (bitcoinpqc.c:272-290). -/
def verifySwitch (algorithm : AlgorithmT) (publicKey message signature : CBuf) : Option Int :=
  if algorithm = bitcoinPqcSecp256k1Schnorr then some (-1)
  else if algorithm = bitcoinPqcMlDsa44 then some (mlDsa44Verify V signature.data message.data publicKey.data)
  else if algorithm = bitcoinPqcSlhDsaShake128s then
    some (slhDsaShake128sVerify V signature.data message.data publicKey.data)
  else none

/-- bitcoinpqc.c:239 -/
def bitcoinPqcVerify (algorithm : AlgorithmT) (publicKey message signature : CBuf) : ErrorT :=
  if publicKey.data = none ∨ message.data = none ∨ signature.data = none then .badArg
  else if publicKey.size ≠ bitcoinPqcPublicKeySize algorithm then .badKey
  else if signature.size ≠ bitcoinPqcSignatureSize algorithm then .badSignature
  else
    match verifySwitch V algorithm publicKey message signature with
    | none => .notImplemented
    | some result => if result ≠ 0 then .badSignature else .ok

end BitcoinPqc
