import BitcoinPqc.RustApi

/-!
# The Node and the Python bindings

Each binding numbers the algorithms itself and hands the number to the C library, through a record
of its functions: the native addon, or `ctypes`. Arguments have the type the binding declares for
them, so the run-time type tests are left out.

| here | there |
| --- | --- |
| `Node.Algorithm`, `Node.PqcError` | nodejs/src/types.ts:4-63 |
| `Node.Native`, `Node.addon` | nodejs/src/library.ts:16-39, nodejs/src/native/bitcoinpqc_addon.cc |
| `Node.generateKeyPair`, `Node.verify` | nodejs/src/index.ts:61-91, :135-171 |
| `Python.Algorithm`, `Python.PyError` | python/bitcoinpqc/bitcoinpqc.py:82-88 |
| `Python.Lib`, `Python.ctypes` | bitcoinpqc.py:337-380 |
| `Python.KeyPair`, `Python.keygen`, `Python.verify` | bitcoinpqc.py:385-406, :468-486, :510-533 |
-/
namespace BitcoinPqc
open CSem

/-! ## Node -/

namespace Node

inductive Algorithm where
  | secp256k1Schnorr | mlDsa44 | slhDsaShake128s
  deriving DecidableEq

def Algorithm.value : Algorithm → AlgorithmT
  | .secp256k1Schnorr => 0
  | .mlDsa44 => 1
  | .slhDsaShake128s => 2

/-- `ErrorCode` -/
def ok : Int := 0
def badArgument : Int := -1
def badKey : Int := -2
def badSignature : Int := -3
def notImplemented : Int := -4

structure PqcError where
  code : Int
  message : String
  deriving DecidableEq

/-- The message the constructor takes when it is given none. -/
def PqcError.ofCode (code : Int) : PqcError where
  code := code
  message :=
    if code = badArgument then "Invalid arguments provided"
    else if code = badKey then "Invalid key provided"
    else if code = badSignature then "Invalid signature provided"
    else if code = notImplemented then "Algorithm not implemented"
    else "Unexpected error code: " ++ toString code

/-- What a call throws: the module's own error, or a plain one of the addon. -/
inductive Thrown where
  | pqc (e : PqcError)
  | error (message : String)
  deriving DecidableEq

/-- A typed array: what it holds, and whether its data pointer is null. Arrays of one process
differ in that, but only an empty one can have a null pointer. -/
structure Uint8Array where
  contents : Bytes
  dataIsNull : Bool
  empty : dataIsNull = true → contents = []

/-- `TypedArray::Data` and `ByteLength` -/
def Uint8Array.data (a : Uint8Array) : CBuf := if a.dataIsNull then .null 0 else .buf a.contents

theorem Uint8Array.data_of_ne_nil (a : Uint8Array) (h : a.contents ≠ []) : a.data = .buf a.contents :=
  if_neg fun hnull => h (a.empty hnull)

theorem Uint8Array.data_eq_buf_iff {a : Uint8Array} {x : Bytes} :
    a.data = .buf x ↔ x = a.contents ∧ a.dataIsNull = false := by
  unfold Uint8Array.data
  split
  · rename_i h
    simp [h]
  · rename_i h
    simp [h, eq_comm]

structure PublicKey where
  algorithm : Algorithm
  bytes : Uint8Array

structure SecretKey where
  algorithm : Algorithm
  bytes : Uint8Array

structure Signature where
  algorithm : Algorithm
  bytes : Uint8Array

structure KeyPair where
  publicKey : PublicKey
  secretKey : SecretKey

/-- types.ts:115 -/
def KeyPair.new (publicKey : PublicKey) (secretKey : SecretKey) : Except Thrown KeyPair :=
  if publicKey.algorithm ≠ secretKey.algorithm then
    .error (.pqc ⟨badArgument, "Public and secret key algorithms must match"⟩)
  else .ok ⟨publicKey, secretKey⟩

structure KeygenResult where
  publicKey : Uint8Array
  secretKey : Uint8Array
  resultCode : Int

/-- `BitcoinPqcNative`: what the module calls. -/
structure Native where
  keygen : AlgorithmT → Uint8Array → ExceptT Thrown (Exec World) KeygenResult
  verify : AlgorithmT → (publicKey message signature : Uint8Array) → Int

/-- What the module depends on beside the library: where new arrays lie, and what the addon's
uninitialised structure holds. -/
structure Host where
  newUint8Array : Bytes → Uint8Array
  contents_new : ∀ bytes, (newUint8Array bytes).contents = bytes
  keypair : KeypairT

variable (E : Host) (V : Vendored) (S : Sys)

/-- bitcoinpqc_addon.cc:58 -/
def addonKeygen (algorithm : AlgorithmT) (randomData : Uint8Array) : ExceptT Thrown (Exec World) KeygenResult :=
  if randomData.contents.length < 128 then throw (.error "Random data must be at least 128 bytes")
  else do
    let (result, keypair) ← bitcoinPqcKeygen V S algorithm (some E.keypair) randomData.data
    if result ≠ .ok then pure ⟨E.newUint8Array [], E.newUint8Array [], result.code⟩
    else do
      let kp ← (Exec.ofOption keypair : Exec World KeypairT)
      let publicKey ← fromRawParts kp.publicKey kp.publicKeySize
      let secretKey ← fromRawParts kp.secretKey kp.secretKeySize
      let _ ← bitcoinPqcKeypairFree (some kp)
      pure ⟨E.newUint8Array publicKey, E.newUint8Array secretKey, 0⟩

/-- bitcoinpqc_addon.cc:166 -/
def addonVerify (algorithm : AlgorithmT) (publicKey message signature : Uint8Array) : Int :=
  (bitcoinPqcVerify V algorithm publicKey.data message.data signature.data).code

def addon : Native := ⟨addonKeygen E V S, addonVerify V⟩

variable (lib : Native)

/-- index.ts:61 -/
def generateKeyPair (algorithm : Algorithm) (randomData : Uint8Array) : ExceptT Thrown (Exec World) KeyPair :=
  if randomData.contents.length < 128 then throw (.pqc ⟨badArgument, "Random data must be at least 128 bytes"⟩)
  else do
    let result ← lib.keygen algorithm.value randomData
    if result.resultCode ≠ ok then throw (.pqc (.ofCode result.resultCode))
    else Exec.ofExcept (KeyPair.new ⟨algorithm, result.publicKey⟩ ⟨algorithm, result.secretKey⟩)

/-- `Signature | Uint8Array` -/
inductive SignatureArg where
  | signature (s : Signature)
  | bytes (bytes : Uint8Array)

/-- index.ts:135: of a `Signature` only the bytes are used. -/
def verify (publicKey : PublicKey) (message : Uint8Array) (signature : SignatureArg) : Except Thrown Unit :=
  let sigBytes := match signature with
    | .signature s => s.bytes
    | .bytes bytes => bytes
  let result := lib.verify publicKey.algorithm.value publicKey.bytes message sigBytes
  if result ≠ ok then .error (.pqc (.ofCode result)) else .ok ()

end Node

/-! ## Python -/

namespace Python

/-- "Algorithm types from bitcoin_pqc_algorithm_t." -/
inductive Algorithm where
  | secp256k1Schnorr | fnDsa512 | mlDsa44 | slhDsaShake128s
  deriving DecidableEq

def Algorithm.value : Algorithm → AlgorithmT
  | .secp256k1Schnorr => 0
  | .fnDsa512 => 1
  | .mlDsa44 => 2
  | .slhDsaShake128s => 3

/-- What a call raises. -/
inductive PyError where
  | valueError (message : String)
  | exception (message : String)
  deriving DecidableEq

/-- `_lib`: what the module calls. A buffer of `ctypes` is never null, also when it is empty. -/
structure Lib where
  keygen : AlgorithmT → KeypairT → Bytes → Exec World (Int × KeypairT)
  verify : AlgorithmT → (publicKey message signature : Bytes) → Int

/-- The shared library, loaded with `ctypes.CDLL`. -/
def ctypes (V : Vendored) (S : Sys) : Lib where
  keygen algorithm keypair randomData := do
    let (result, keypair) ← bitcoinPqcKeygen V S algorithm (some keypair) (.buf randomData)
    let kp ← Exec.ofOption keypair
    pure (result.code, kp)
  verify algorithm publicKey message signature :=
    (bitcoinPqcVerify V algorithm (.buf publicKey) (.buf message) (.buf signature)).code

/-- The C structure stays allocated as long as the object lives. -/
structure KeyPair where
  algorithm : Algorithm
  keypair : KeypairT
  publicKey : Bytes
  secretKey : Bytes

/-- One of the two copies of `KeyPair.__init__` (bitcoinpqc.py:394-406). -/
def copyField (p : Option Ptr) (size : Nat) : Exec World Bytes :=
  if p ≠ none ∧ 0 < size then fromRawParts p size else pure []

/-- bitcoinpqc.py:388 -/
def KeyPair.init (algorithm : Algorithm) (keypair : KeypairT) : Exec World KeyPair := do
  let publicKey ← copyField keypair.publicKey keypair.publicKeySize
  let secretKey ← copyField keypair.secretKey keypair.secretKeySize
  pure ⟨algorithm, keypair, publicKey, secretKey⟩

structure Signature where
  algorithm : Algorithm
  signature : Bytes

/-- `Union[Signature, bytes]` -/
inductive SignatureArg where
  | signature (s : Signature)
  | bytes (bytes : Bytes)

variable (lib : Lib)

/-- bitcoinpqc.py:468 -/
def keygen (algorithm : Algorithm) (randomData : Bytes) : ExceptT PyError (Exec World) KeyPair :=
  if randomData.length < 128 then throw (.valueError "Random data must be at least 128 bytes")
  else do
    let (result, keypair) ← lib.keygen algorithm.value .zero randomData
    if result ≠ 0 then throw (.exception ("Key generation failed with error code: " ++ toString result))
    else KeyPair.init algorithm keypair

/-- bitcoinpqc.py:510: of a `Signature` only the bytes are used. -/
def verify (algorithm : Algorithm) (publicKey message : Bytes) (signature : SignatureArg) : Bool :=
  let sigBytes := match signature with
    | .signature s => s.signature
    | .bytes bytes => bytes
  lib.verify algorithm.value publicKey message sigBytes = 0

end Python

/-! ## One name in three languages -/

/-- The two PQC algorithms that all three modules name. -/
inductive PqcName where
  | mlDsa44 | slhDsa
  deriving DecidableEq

namespace PqcName

def rust : PqcName → Algorithm
  | .mlDsa44 => .mlDsa44
  | .slhDsa => .slhDsa128s

def node : PqcName → Node.Algorithm
  | .mlDsa44 => .mlDsa44
  | .slhDsa => .slhDsaShake128s

def python : PqcName → Python.Algorithm
  | .mlDsa44 => .mlDsa44
  | .slhDsa => .slhDsaShake128s

/-- The number of the algorithm in the C library. -/
def c : PqcName → AlgorithmT
  | .mlDsa44 => bitcoinPqcMlDsa44
  | .slhDsa => bitcoinPqcSlhDsaShake128s

end PqcName

end BitcoinPqc
